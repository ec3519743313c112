import Knapsack.Node.Basic

/-! # Branching

A branching rule splits a node whose relaxation is fractional. The rules here fix one fractional
item, first to 0 and then to 1; a node without fractional item has no child.
-/

namespace Knapsack

/-- The fixations of the children of a node. The first argument counts the earlier calls. -/
abbrev Branching := Nat → Node → Except Failure (List Fixation)

namespace Branching

/-- The two children that differ on one item. -/
def both (fixation : Fixation) (index : Nat) : Except Failure (List Fixation) := do
  let (left, right) ← Failure.ofError (fixation.split index)
  return [left, right]

/-- Splits on a chosen item, if one was chosen. -/
def onChoice (node : Node) (choice? : Option Nat) : Except Failure (List Fixation) :=
  match choice? with
  | none => .ok []
  | some index => both node.fixation index

/-- Splits on the fractional item of lowest index. -/
def firstFractional : Branching := fun _ node =>
  onChoice node node.relaxed.fractionalIndices.head?

/-- The fractional items of a solution, each with the distance of its selection to one half. -/
def distances (solution : Solution) : Except Defect (List (Nat × Fraction)) :=
  solution.fractionalIndices.mapM fun index => do
    let distance ← exactly ((solution.selection[index]?.getD 0).distance .half)
    return (index, distance)

/-- The first of the pairs with the smallest second component. -/
def nearest? : List (Nat × Fraction) → Option (Nat × Fraction)
  | [] => none
  | pair :: rest =>
    match nearest? rest with
    | none => some pair
    | some other => if other.2 < pair.2 then some other else some pair

/-- Splits on the fractional item whose selection is nearest to one half, and of several on the one
of lowest index. -/
def mostFractional : Branching := fun _ node => do
  let distances ← Failure.ofDefect (distances node.relaxed)
  onChoice node ((nearest? distances).map (·.1))

end Branching

end Knapsack
