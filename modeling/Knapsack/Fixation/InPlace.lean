import Knapsack.Fixation

/-! # Fixing in place

The owner of a fixation may also edit it in place. Nothing takes an edit back: what was changed
before a failure stays changed. Splitting edits copies only.
-/

namespace Knapsack.Fixation

/-- An edit of a fixation, which is there afterwards also when the edit fails. -/
abbrev Edit := EStateM Error Fixation

/-- Fixes one item of the edited fixation to 0 or 1, with the errors of `fix`. -/
def fixInPlace (index value : Nat) : Edit Unit := do
  if 1 < value then throw (.invalidFixValue value)
  let length := (← get).length
  match (← get).get? index with
  | none => throw (.indexOutOfBounds index length)
  | some (some _) => throw (.alreadyFixed index)
  | some none => modify fun fixation => ⟨fixation.decisions.set index (some (value == 1))⟩

/-- Fixes one item after the other, up to the first that cannot be fixed. -/
def fixAll (calls : List (Nat × Nat)) : Edit Unit :=
  calls.forM fun (index, value) => fixInPlace index value

/-- Edits a copy instead. -/
def onCopy (copy : Fixation) (edit : Edit Unit) : Edit Fixation :=
  match edit copy with
  | .ok _ edited => return edited
  | .error error _ => throw error

/-- Splits the edited fixation by fixing one item of two copies. -/
def splitCopies (index : Nat) : Edit (Fixation × Fixation) := do
  let left ← get
  let right ← get
  let left ← onCopy left (fixInPlace index 0)
  let right ← onCopy right (fixInPlace index 1)
  return (left, right)

end Knapsack.Fixation
