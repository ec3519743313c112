import Knapsack.Defect
import Knapsack.Fixation

/-! # Nodes of the search tree -/

namespace Knapsack

/-- A place in the search tree, with the relaxed solution of what can be found below it. The value
and the feasibility of the relaxed solution are computed once, when the node is created. -/
structure Node where
  id : Nat
  parent? : Option Nat
  depth : Nat
  fixation : Fixation
  relaxed : Solution
  value : Fraction
  feasible : Bool
  status : Status
deriving DecidableEq

namespace Node

def isRoot (node : Node) : Bool := node.parent?.isNone

/-- Moves a node forward in its lifecycle. -/
def advance (node : Node) (target : Status) : Except Defect Node :=
  if node.status.mayBecome target then .ok { node with status := target }
  else .error (.illegalStatus node.id node.status target)

end Node

end Knapsack
