/-! # The lifecycle of a node -/

namespace Knapsack

/-- A node starts unknown, may wait on the frontier, and ends in one of four classes. -/
inductive Status where
  | unknown
  | enqueued
  | infeasible
  | pruned
  | feasible
  | branched
deriving DecidableEq

namespace Status

/-- Whether a status is one of the four final classes. -/
def isTerminal : Status → Bool
  | .unknown | .enqueued => false
  | .infeasible | .pruned | .feasible | .branched => true

/-- A node only moves forward: from unknown to the frontier, and from either to a final class. -/
def mayBecome : Status → Status → Bool
  | .unknown, .enqueued => true
  | .unknown, target | .enqueued, target => target.isTerminal
  | _, _ => false

def text : Status → String
  | .unknown => "Unknown"
  | .enqueued => "Enqueued"
  | .infeasible => "Infeasible"
  | .pruned => "Pruned"
  | .feasible => "Feasible"
  | .branched => "Branched"

instance : ToString Status := ⟨text⟩

end Status

end Knapsack
