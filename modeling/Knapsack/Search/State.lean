import Knapsack.Branching
import Knapsack.Frontier
import Knapsack.Heuristic.Basic
import Knapsack.Node.Tree
import Knapsack.Search.Event
import Knapsack.SolutionSet

/-! # The plan and the state of a search

The plan of a search is fixed from the start: an instance, the strategies and the limits. The state
is what changes, and the journal in it is the whole history of the search.
-/

namespace Knapsack.Search

/-- How long a search may last, and which solutions it records. -/
structure Config where
  iterationLimit : Nat := 10000
  keepAll : Bool := true
deriving DecidableEq

/-- What a search is about, and how it goes about it. -/
structure Plan where
  inst : Instance
  relaxation : Relaxation := .greedy
  branching : Branching := .firstFractional
  heuristic : Heuristic := .none
  config : Config := {}

/-- The lifecycle of a search. -/
inductive Phase where
  | notStarted
  | running
  | finished
deriving DecidableEq

def Phase.text : Phase → String
  | .notStarted => "NotStarted"
  | .running => "Running"
  | .finished => "Finished"

/-- Everything that a search changes; its frontier may be of any kind. -/
structure State (φ : Type) where
  frontier : φ
  solutions : SolutionSet
  tree : Tree := {}
  branchings : Nat := 0
  heuristicRuns : Nat := 0
  phase : Phase := .notStarted
  statistics : Statistics := {}
  upperBound : Bound := .posInfinity
  failure? : Option Error := none
  journal : Array JournalEntry := #[]

namespace State

variable {φ : Type}

/-- Before a search, which takes over the frontier as it is. -/
def initial (plan : Plan) (frontier : φ) : State φ where
  frontier
  solutions := .empty plan.config.keepAll

/-- The value of the incumbent, and minus infinity when there is none. -/
def lowerBound (state : State φ) : Bound := state.solutions.lowerBound

/-- The events so far. -/
def events (state : State φ) : List Event := state.journal.toList.filterMap (·.event?)

/-- The distance between the bounds relative to the upper one. It is zero once nothing better can
be found, and one while a bound is unknown. -/
def gap (state : State φ) : Except Defect Binary64 :=
  match state.lowerBound, state.upperBound with
  | .finite lower, .finite upper =>
    if upper ≤ lower ∨ upper = 0 then .ok (.ofNat 0)
    else do
      let difference ← exactly (upper.sub lower)
      return difference.toBinary64.div upper.toBinary64
  | _, .negInfinity => .ok (.ofNat 0)
  | _, _ => .ok (.ofNat 1)

end State

end Knapsack.Search
