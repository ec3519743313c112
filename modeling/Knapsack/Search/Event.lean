import Knapsack.Node.Basic
import Knapsack.Search.Notice

/-! # Events: what an observer of a search gets to see

The journal of a search holds its events and its notices in the order in which they happened. An
observer is a function of the events alone, so it can neither alter the search nor be missed by it.
-/

namespace Knapsack.Search

/-- A key moment of a search. The bounds of a processed node are the global ones after it. -/
inductive Event where
  | searchStarted (inst : Instance)
  | nodeCreated (node : Node)
  | solutionFound (node : Node) (solution : Solution) (incumbent : Bound)
  | nodeProcessed (node : Node) (lower upper : Bound) (incumbent? : Option Solution)
      (found : List Solution)
  | searchEnded (statistics : Statistics)
deriving DecidableEq

/-- Something that happened during a search. -/
inductive JournalEntry where
  | event (event : Event)
  | notice (notice : Notice)
deriving DecidableEq

/-- The event of an entry, if it is one. -/
def JournalEntry.event? (entry : JournalEntry) : Option Event :=
  match entry with
  | .event seen => some seen
  | .notice _ => none

end Knapsack.Search
