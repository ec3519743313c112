import Mathlib
import Knapsack.Defect

/-! # Computations that come out

A computation in several parts comes out when each of its parts does, and a pass over a list when
each of its steps does. Where exact arithmetic is part of a computation that may fail otherwise, it
comes out as it did on its own.
-/

namespace Knapsack

variable {α β ε : Type}

/-- A computation in two parts comes out when both parts do. -/
theorem bind_eq_ok {first : Except ε α} {next : α → Except ε β} {result : β} :
    first >>= next = .ok result ↔ ∃ value, first = .ok value ∧ next value = .ok result := by
  cases first with
  | error fault =>
    constructor
    · intro outcome
      exact nomatch outcome
    · rintro ⟨_, absent, -⟩
      exact nomatch absent
  | ok value =>
    constructor
    · exact fun outcome => ⟨value, rfl, outcome⟩
    · rintro ⟨_, same, outcome⟩
      obtain rfl := Except.ok.inj same
      exact outcome

/-- A computation in two parts fails in the first part, or in the second one once the first has come
out. -/
theorem bind_eq_error {first : Except ε α} {next : α → Except ε β} {fault : ε} :
    first >>= next = .error fault ↔
      first = .error fault ∨ ∃ value, first = .ok value ∧ next value = .error fault := by
  cases first with
  | error other =>
    constructor
    · exact fun outcome => Or.inl (congrArg Except.error (Except.error.inj outcome))
    · rintro (same | ⟨_, absent, -⟩)
      · exact congrArg Except.error (Except.error.inj same)
      · exact nomatch absent
  | ok value =>
    constructor
    · exact fun outcome => Or.inr ⟨value, rfl, outcome⟩
    · rintro (absent | ⟨_, same, outcome⟩)
      · exact nomatch absent
      · obtain rfl := Except.ok.inj same
        exact outcome

/-- A pass fails at one entry, and all entries before that one were taken in. -/
theorem foldlM_eq_error_iff {step : β → α → Except ε β} {entries : List α} {start : β} {fault : ε} :
    entries.foldlM step start = .error fault ↔ ∃ before entry after middle,
      entries = before ++ entry :: after ∧ before.foldlM step start = .ok middle ∧
        step middle entry = .error fault := by
  constructor
  · intro outcome
    induction entries generalizing start with
    | nil => exact nomatch outcome
    | cons entry rest ih =>
      rw [List.foldlM_cons, bind_eq_error] at outcome
      rcases outcome with now | ⟨next, taken, later⟩
      · exact ⟨[], entry, rest, start, rfl, rfl, now⟩
      · obtain ⟨before, bad, after, middle, rfl, passed, failed⟩ := ih later
        refine ⟨entry :: before, bad, after, middle, rfl, ?_, failed⟩
        exact bind_eq_ok.mpr ⟨next, taken, passed⟩
  · rintro ⟨before, entry, after, middle, rfl, passed, failed⟩
    rw [List.foldlM_append]
    refine bind_eq_error.mpr (Or.inr ⟨middle, passed, ?_⟩)
    exact bind_eq_error.mpr (Or.inl failed)

/-- A pass that answers every entry comes out when every entry has an answer. -/
theorem exists_mapM_ok (entries : List α) (f : α → Except ε β) (good : α → β → Prop)
    (each : ∀ entry ∈ entries, ∃ answer, f entry = .ok answer ∧ good entry answer) :
    ∃ answers, entries.mapM f = .ok answers ∧ List.Forall₂ good entries answers := by
  induction entries with
  | nil => exact ⟨[], rfl, List.Forall₂.nil⟩
  | cons entry rest ih =>
    obtain ⟨answer, first, fine⟩ := each entry (List.mem_cons_self ..)
    obtain ⟨answers, others, matched⟩ :=
      ih fun other member => each other (List.mem_cons_of_mem _ member)
    refine ⟨answer :: answers, ?_, List.Forall₂.cons fine matched⟩
    simp only [List.mapM_cons, first, others, bind, Except.bind, pure, Except.pure]

/-- What all answers have in common. -/
theorem exists_mapM_ok_forall (entries : List α) (f : α → Except ε β) (good : β → Prop)
    (each : ∀ entry ∈ entries, ∃ answer, f entry = .ok answer ∧ good answer) :
    ∃ answers, entries.mapM f = .ok answers ∧ ∀ answer ∈ answers, good answer := by
  obtain ⟨answers, outcome, matched⟩ := exists_mapM_ok entries f (fun _ => good) each
  refine ⟨answers, outcome, ?_⟩
  clear outcome each
  induction matched with
  | nil => simp
  | cons first _ ih => exact List.forall_mem_cons.mpr ⟨first, ih⟩

/-- A pass over entries that are all answered gives all the answers. -/
theorem mapM_eq_ok {entries : List α} {f : α → Except ε β} {answer : α → β}
    (each : ∀ entry ∈ entries, f entry = .ok (answer entry)) :
    entries.mapM f = .ok (entries.map answer) := by
  induction entries with
  | nil => rfl
  | cons entry rest ih =>
    have others := ih fun other member => each other (List.mem_cons_of_mem _ member)
    simp only [List.mapM_cons, each entry (List.mem_cons_self ..), others, bind, Except.bind, pure,
      Except.pure, List.map_cons]

@[simp]
theorem exactly_eq_ok_iff {outcome : Except ArithmeticFault α} {result : α} :
    exactly outcome = .ok result ↔ outcome = .ok result := by
  cases outcome <;> simp [exactly, Except.mapError]

namespace Failure

@[simp]
theorem ofDefect_eq_ok_iff {outcome : Except Defect α} {result : α} :
    ofDefect outcome = .ok result ↔ outcome = .ok result := by
  cases outcome <;> simp [ofDefect, Except.mapError]

end Failure

end Knapsack
