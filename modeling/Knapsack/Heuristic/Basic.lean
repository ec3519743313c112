import Knapsack.Node.Basic
import Knapsack.Search.Notice

/-! # Primal heuristics

A heuristic looks for integral feasible solutions around a node and never alters the search tree.
-/

namespace Knapsack

/-- The solutions that a heuristic found, in order, and what it has to tell before the first. -/
structure Harvest where
  notices : List Search.Notice := []
  solutions : List Solution := []
deriving DecidableEq

/-- A heuristic for the nodes of an instance. The first argument counts the earlier calls. -/
abbrev Heuristic := Nat → Instance → Node → Except Defect Harvest

/-- No solution is looked for. -/
def Heuristic.none : Heuristic := fun _ _ _ => .ok {}

end Knapsack
