import Knapsack.Proofs.Outcome
import Knapsack.Proofs.Search.Leads

/-! # Steps that match

Two steps match when related states lead to outcomes with the same result or the same failure, and
to related states again. The states may be of different types. Steps that are put together from
matching ones match, so it is enough to compare two programs part by part.
-/

namespace Knapsack.Search

/-- Two outcomes with one result or one failure, in related states. -/
inductive Abreast {σ τ α : Type} (related : σ → τ → Prop) :
    EStateM.Result Failure σ α → EStateM.Result Failure τ α → Prop
  | ok {result : α} {a : σ} {b : τ} (relates : related a b) :
      Abreast related (.ok result a) (.ok result b)
  | error {failure : Failure} {a : σ} {b : τ} (relates : related a b) :
      Abreast related (.error failure a) (.error failure b)

namespace Abreast

variable {σ τ υ α : Type} {related : σ → τ → Prop} {a : EStateM.Result Failure σ α}
  {b : EStateM.Result Failure τ α} {c : EStateM.Result Failure υ α}

theorem imp {weaker : σ → τ → Prop} (abreast : Abreast related a b)
    (weaken : ∀ x y, related x y → weaker x y) : Abreast weaker a b := by
  cases abreast with
  | ok relates => exact .ok (weaken _ _ relates)
  | error relates => exact .error (weaken _ _ relates)

/-- Two outcomes that are abreast of a third one are abreast of each other. -/
theorem of_common {left : σ → υ → Prop} {right : τ → υ → Prop} (first : Abreast left a c)
    (second : Abreast right b c) (meet : ∀ x y z, left x z → right y z → related x y) :
    Abreast related a b := by
  cases first with
  | ok relates =>
    cases second with
    | ok also => exact .ok (meet _ _ _ relates also)
  | error relates =>
    cases second with
    | error also => exact .error (meet _ _ _ relates also)

end Abreast

/-- Two steps that lead related states to outcomes abreast. -/
def Step.Matches {σ τ α : Type} (related : σ → τ → Prop) (left : EStateM Failure σ α)
    (right : EStateM Failure τ α) : Prop :=
  ∀ a b, related a b → Abreast related (left a) (right b)

namespace Step.Matches

variable {σ τ α β : Type} {related : σ → τ → Prop} {left : EStateM Failure σ α}
  {right : EStateM Failure τ α} {next : α → EStateM Failure σ β} {next' : α → EStateM Failure τ β}

theorem pure (result : α) : Matches related (Pure.pure result : EStateM Failure σ α)
    (Pure.pure result : EStateM Failure τ α) :=
  fun _ _ relates => .ok relates

theorem throw (failure : Failure) :
    Matches related (MonadExcept.throw failure : EStateM Failure σ α)
      (MonadExcept.throw failure : EStateM Failure τ α) :=
  fun _ _ relates => .error relates

theorem bind (first : Matches related left right)
    (second : ∀ result, Matches related (next result) (next' result)) :
    Matches related (left >>= next) (right >>= next') := by
  intro a b relates
  rw [Step.bind_apply, Step.bind_apply]
  have outcome := first a b relates
  generalize left a = here at outcome ⊢
  generalize right b = there at outcome ⊢
  cases outcome with
  | ok relates => exact second _ _ _ relates
  | error relates => exact .error relates

/-- A look at both states, and then steps that may depend on what was seen. -/
theorem get_bind {next : σ → EStateM Failure σ β} {next' : τ → EStateM Failure τ β}
    (second : ∀ a b, related a b → Matches related (next a) (next' b)) :
    Matches related (get >>= next) (get >>= next') :=
  fun a b relates => second a b relates a b relates

/-- A change on both sides, and then steps. -/
theorem modify_bind {change : σ → σ} {change' : τ → τ} {next : Unit → EStateM Failure σ β}
    {next' : Unit → EStateM Failure τ β}
    (kept : ∀ a b, related a b → related (change a) (change' b))
    (second : Matches related (next ()) (next' ())) :
    Matches related ((modify change : EStateM Failure σ Unit) >>= next)
      ((modify change' : EStateM Failure τ Unit) >>= next') :=
  fun a b relates => second _ _ (kept a b relates)

theorem modify {change : σ → σ} {change' : τ → τ}
    (kept : ∀ a b, related a b → related (change a) (change' b)) :
    Matches related (modify change : EStateM Failure σ Unit)
      (modify change' : EStateM Failure τ Unit) :=
  fun a b relates => .ok (kept a b relates)

section

variable {φ ψ : Type} {related : State φ → State ψ → Prop} {next : α → Step φ β}
  {next' : α → Step ψ β}

/-- A result from outside the search, the same on both sides. -/
theorem ofExcept_bind {outcome : Except Failure α}
    (second : ∀ result, outcome = .ok result → Matches related (next result) (next' result)) :
    Matches related (Step.ofExcept outcome >>= next) (Step.ofExcept outcome >>= next') := by
  cases outcome with
  | ok result => exact second result rfl
  | error failure => exact fun _ _ relates => .error relates

theorem ofDefect_bind {outcome : Except Defect α}
    (second : ∀ result, outcome = .ok result → Matches related (next result) (next' result)) :
    Matches related (Step.ofDefect outcome >>= next) (Step.ofDefect outcome >>= next') :=
  ofExcept_bind fun result known => second result (Failure.ofDefect_eq_ok_iff.mp known)

end

theorem forM {entries : List α} {step : α → EStateM Failure σ Unit}
    {step' : α → EStateM Failure τ Unit}
    (each : ∀ entry ∈ entries, Matches related (step entry) (step' entry)) :
    Matches related (entries.forM step) (entries.forM step') := by
  induction entries with
  | nil => exact pure ()
  | cons entry rest ih =>
    exact bind (each entry (List.mem_cons_self ..)) fun _ =>
      ih fun other member => each other (List.mem_cons_of_mem _ member)

theorem tryCatch {handle : Failure → EStateM Failure σ α}
    {handle' : Failure → EStateM Failure τ α} (first : Matches related left right)
    (second : ∀ failure, Matches related (handle failure) (handle' failure)) :
    Matches related (tryCatch left handle) (tryCatch right handle') := by
  intro a b relates
  rw [Step.tryCatch_apply, Step.tryCatch_apply]
  have outcome := first a b relates
  generalize left a = here at outcome ⊢
  generalize right b = there at outcome ⊢
  cases outcome with
  | ok relates => exact .ok relates
  | error relates => exact second _ _ _ relates

end Step.Matches

end Knapsack.Search
