import Knapsack.Search.Event

/-! # Tracking the progress of a search

A progress tracker counts nodes, follows the global bounds and writes a table with one row for each
processed node. It starts afresh with every search.
-/

namespace Knapsack

/-- The progress of the current search. Selections that the heuristic found are held back until
the node they were found for is processed. -/
structure ProgressTracker where
  nodes : Nat := 0
  iterations : Nat := 0
  lower : Bound := .negInfinity
  upper : Bound := .posInfinity
  pending : List (List Fraction) := []
  found : List (List Fraction) := []
deriving DecidableEq

namespace ProgressTracker

/-- A solution of the heuristic counts when its value is at least that of the incumbent. -/
def find (tracker : ProgressTracker) (solution : Solution) (incumbent : Bound) :
    Except Defect (ProgressTracker × List Search.Notice) := do
  let value ← exactly solution.value
  if .finite value < incumbent then return (tracker, [])
  return ({ tracker with pending := tracker.pending ++ [solution.selection] },
    [.tableSolution solution value])

/-- A processed node gives a row of the table. -/
def process (tracker : ProgressTracker) (node : Node) (lower upper : Bound) :
    ProgressTracker × List Search.Notice :=
  let next := { tracker with
    iterations := tracker.iterations + 1
    lower, upper
    pending := []
    found := tracker.pending }
  (next, [.tableRow {
    iterations := next.iterations
    nodes := next.nodes
    depth := node.depth
    status := node.status
    value := node.value
    upper, lower }])

/-- Follows one event, and tells about it. -/
def observe (tracker : ProgressTracker) :
    Search.Event → Except Defect (ProgressTracker × List Search.Notice)
  | .searchStarted inst => .ok ({}, [.tableTitle inst.size inst.capacity.toNat, .tableHeader])
  | .nodeCreated _ => .ok ({ tracker with nodes := tracker.nodes + 1 }, [])
  | .solutionFound _ solution incumbent => tracker.find solution incumbent
  | .nodeProcessed node lower upper _ _ => .ok (tracker.process node lower upper)
  | .searchEnded statistics =>
    .ok (tracker, [.tableEnd statistics.iterations statistics.nodesCreated])

/-- What a tracker knows after it watched some events. -/
def observeAll (tracker : ProgressTracker) (events : List Search.Event) :
    Except Defect ProgressTracker :=
  events.foldlM (fun tracker event => do return (← tracker.observe event).1) tracker

end ProgressTracker

end Knapsack
