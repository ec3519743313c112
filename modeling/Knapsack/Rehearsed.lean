import Knapsack.Branching
import Knapsack.Frontier
import Knapsack.Heuristic.Basic
import Knapsack.Relaxation

/-! # Rehearsed strategies

These strategies answer from a list, or by a rule that no search needs for itself. They show how a
search behaves with strategies that are poor, unusual, or break their contract.
-/

namespace Knapsack

/-- The entry that answers a call: later calls repeat the last entry. -/
def rehearsed? {α : Type} (answers : List α) (call : Nat) : Option α :=
  answers[min call (answers.length - 1)]?

namespace Relaxation

/-- Replaces the entries at fixed positions by the fixed values. -/
def forceFixed (fixation : Fixation) (selection : List Fraction) : List Fraction :=
  selection.zipIdx.map fun (taken, index) =>
    match fixation.get? index with
    | some (some decision) => .ofDecision decision
    | _ => taken

/-- A relaxation that reads its selections off a table, one row for each call. -/
def table (rows : List (List Fraction)) (force : Bool) : Relaxation := fun call inst fixation =>
  let row := (rehearsed? rows call).getD []
  Solution.ofSelection inst (if force then forceFixed fixation row else row)

end Relaxation

namespace Branching

/-- No child at all. -/
def noChild : Branching := fun _ _ => .ok []

/-- One child, no more constrained than its parent. -/
def same : Branching := fun _ node => .ok [node.fixation]

/-- One child with one item too many. -/
def longer : Branching := fun _ node => .ok [⟨node.fixation.decisions ++ [some true]⟩]

/-- Both children of the first fractional item, the packing one first. -/
def swapped : Branching := fun call node => do return (← firstFractional call node).reverse

/-- Only the packing child of the first fractional item. -/
def rightOnly : Branching := fun call node => do return (← firstFractional call node).drop 1

/-- Both children of every fractional item. -/
def everyFractional : Branching := fun _ node => do
  return (← node.relaxed.fractionalIndices.mapM (both node.fixation)).flatten

/-- Both children of an item that is given for each call. -/
def splitAt (indices : List Nat) : Branching := fun call node =>
  onChoice node (rehearsed? indices call)

end Branching

namespace Heuristic

/-- A heuristic that yields a given list of selections at each call, and nothing afterwards. -/
def script (calls : List (List (List Fraction))) : Heuristic := fun call inst _ =>
  .ok { solutions := (calls[call]?.getD []).filterMap fun selection =>
    (Solution.ofSelection inst selection).toOption }

end Heuristic

namespace Ranking

/-- All nodes are equal. -/
def constant : Ranking := minKey fun _ => 0

/-- Earliest created node first. -/
def oldest : Ranking := minKey (·.id)

/-- Latest created node first. -/
def newest : Ranking := fun a b => compare a.id b.id

/-- Lowest relaxed value first. -/
def lowestValue : Ranking := minKey (·.value)

/-- Deepest node first, then the earliest created. -/
def deepOldest : Ranking := fun a b => (compare a.depth b.depth).then (compare b.id a.id)

/-- Infeasible nodes first. -/
def infeasibleFirst : Ranking := minKey (·.feasible)

end Ranking

end Knapsack
