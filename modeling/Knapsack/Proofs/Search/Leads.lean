import Knapsack.Search.Run

/-! # What a step of a search leads to

A step leads to some result and state, or it fails with a failure that is excused. Which failures
are excused depends on what is known about the strategies and about the number of items.
-/

namespace Knapsack.Search

variable {α β : Type} {excuse : Failure → Prop} {before : State Frontier}
  {good : α → State Frontier → Prop}

/-- A step either comes out well or fails with an excuse. -/
def Leads (excuse : Failure → Prop) (step : Step Frontier α) (before : State Frontier)
    (good : α → State Frontier → Prop) : Prop :=
  match step before with
  | .ok result after => good result after
  | .error failure _ => excuse failure

namespace Step

variable {σ : Type}

theorem bind_apply (step : EStateM Failure σ α) (next : α → EStateM Failure σ β) (before : σ) :
    (step >>= next) before = match step before with
      | .ok result after => next result after
      | .error failure after => .error failure after := by
  change EStateM.bind step next before = _
  unfold EStateM.bind
  cases step before <;> rfl

theorem get_apply (before : σ) : (get : EStateM Failure σ σ) before = .ok before before := rfl

theorem tryCatch_apply (step : EStateM Failure σ α) (handle : Failure → EStateM Failure σ α)
    (before : σ) : tryCatch step handle before = match step before with
      | .ok result after => .ok result after
      | .error failure after => handle failure after := by
  change EStateM.tryCatch step handle before = _
  unfold EStateM.tryCatch
  cases step before <;> rfl

theorem ofExcept_ok {φ : Type} (result : α) : (ofExcept (.ok result) : Step φ α) = pure result :=
  rfl

end Step

namespace Leads

theorem of_eq {step : Step Frontier α} {result : α} {after : State Frontier}
    (outcome : step before = .ok result after) (fine : good result after) :
    Leads excuse step before good := by
  unfold Leads
  rw [outcome]
  exact fine

theorem pure {result : α} (fine : good result before) :
    Leads excuse (Pure.pure result) before good := fine

theorem throw {failure : Failure} (excused : excuse failure) :
    Leads excuse (throw failure : Step Frontier α) before good := excused

theorem of_ok {step : Step Frontier α} {result : α} {after : State Frontier}
    (leads : Leads excuse step before good)
    (outcome : step before = .ok result after) : good result after := by
  unfold Leads at leads
  rwa [outcome] at leads

theorem of_error {step : Step Frontier α} {failure : Failure} {after : State Frontier}
    (leads : Leads excuse step before good) (outcome : step before = .error failure after) :
    excuse failure := by
  unfold Leads at leads
  rwa [outcome] at leads

theorem imp {step : Step Frontier α} {better : α → State Frontier → Prop}
    (leads : Leads excuse step before better)
    (weaken : ∀ result after, better result after → good result after) :
    Leads excuse step before good := by
  unfold Leads at leads ⊢
  split
  · rename_i result after outcome
    rw [outcome] at leads
    exact weaken result after leads
  · rename_i failure after outcome
    rwa [outcome] at leads

/-- One step after another. -/
theorem bind {step : Step Frontier α} {next : α → Step Frontier β}
    (middle : α → State Frontier → Prop)
    {final : β → State Frontier → Prop} (first : Leads excuse step before middle)
    (second : ∀ result after, middle result after → Leads excuse (next result) after final) :
    Leads excuse (step >>= next) before final := by
  unfold Leads at first
  cases outcome : step before with
  | ok result after =>
    rw [outcome] at first
    have rest := second result after first
    unfold Leads at rest ⊢
    rwa [Step.bind_apply, outcome]
  | error failure after =>
    rw [outcome] at first
    unfold Leads
    rwa [Step.bind_apply, outcome]

/-- A change of the state, and then a step. -/
theorem modify_bind {change : State Frontier → State Frontier} {next : Unit → Step Frontier β}
    {final : β → State Frontier → Prop}
    (second : Leads excuse (next ()) (change before) final) :
    Leads excuse (modify change >>= next) before final := second

/-- A look at the state, and then a step. -/
theorem get_bind {next : State Frontier → Step Frontier β} {final : β → State Frontier → Prop}
    (second : Leads excuse (next before) before final) :
    Leads excuse (get >>= next) before final := second

/-- A result from outside the search. -/
theorem ofExcept {outcome : Except Failure α} (fine : ∀ result, outcome = .ok result →
      good result before) (excused : ∀ failure, outcome = .error failure → excuse failure) :
    Leads excuse (Step.ofExcept outcome) before good := by
  cases outcome with
  | ok result => exact fine result rfl
  | error failure => exact excused failure rfl

/-- A result from outside the search that may have broken a contract. -/
theorem ofDefect {outcome : Except Defect α} (fine : ∀ result, outcome = .ok result →
      good result before) (excused : ∀ defect, outcome = .error defect → excuse (.defect defect)) :
    Leads excuse (Step.ofDefect outcome) before good := by
  cases outcome with
  | ok result => exact fine result rfl
  | error defect => exact excused defect rfl

end Leads

end Knapsack.Search
