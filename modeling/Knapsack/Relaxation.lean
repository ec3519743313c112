import Knapsack.Fixation
import Knapsack.Solution

/-! # Relaxations

A relaxation gives the best fractional solution that keeps a fixation; its value bounds every
packing that agrees with the fixation. The greedy relaxation fills the room that the fixed items
leave by decreasing density and cuts the first item that does not fit.
-/

namespace Knapsack

/-- A relaxation of an instance under a fixation. The first argument counts the earlier calls, so
that a relaxation that answers from a list is a function too. -/
abbrev Relaxation := Nat → Instance → Fixation → Except Error Solution

namespace Relaxation

/-- What is fixed by a fixation, with nothing of the open items. -/
def fixedPart (fixation : Fixation) : List Fraction :=
  fixation.decisions.map fun decision => .ofDecision (decision.getD false)

/-- The weight of the items that are fixed to be packed. -/
def fixedWeight (inst : Instance) (fixation : Fixation) : Nat :=
  inst.markedWeight (fixation.decisions.map (· == some true))

/-- Packs items in the given order while they fit; the first one that does not fit is cut to the
room that is left, and nothing follows it. -/
def pour (room : Nat) : List IndexedItem → List (Nat × Fraction)
  | [] => []
  | entry :: rest =>
    if h : entry.item.weight.toNat ≤ room then
      (entry.index, 1) :: pour (room - entry.item.weight.toNat) rest
    else
      have heavy : entry.item.weight.toNat ≠ 0 := by omega
      [(entry.index, .reduce room entry.item.weight.toNat heavy)]

/-- Writes amounts at their indices. -/
def place (selection : List Fraction) (amounts : List (Nat × Fraction)) : List Fraction :=
  amounts.foldl (fun selection (index, amount) => selection.set index amount) selection

/-- The selection of the greedy relaxation; when the fixed items do not fit, no other is packed. -/
def greedySelection (inst : Instance) (fixation : Fixation) : List Fraction :=
  let fixedWeight := fixedWeight inst fixation
  if fixedWeight ≤ inst.capacity.toNat then
    place (fixedPart fixation)
      (pour (inst.capacity.toNat - fixedWeight) (inst.byDensity fixation.openIndices))
  else fixedPart fixation

/-- The greedy fractional fill, which solves the linear relaxation exactly. -/
def greedy : Relaxation := fun _ inst fixation =>
  if fixation.length = inst.size then Solution.ofSelection inst (greedySelection inst fixation)
  else .error (.lengthMismatch inst.size fixation.length)

end Relaxation

end Knapsack
