import Knapsack.Bound
import Knapsack.Search.Statistics
import Knapsack.Solution

/-! # Notices: what a search tells its user

A notice keeps its data; its level and its text are computed from them. Some come from the search
and its heuristic, and the others make up the progress table.
-/

namespace Knapsack.Search

/-- How important a notice is. -/
inductive Level where
  | debug
  | info
  | warn
deriving DecidableEq

namespace Level

/-- Levels by increasing importance. -/
def rank : Level → Nat
  | .debug => 0
  | .info => 1
  | .warn => 2

def name : Level → String
  | .debug => "DEBUG"
  | .info => "INFO"
  | .warn => "WARN"

end Level

/-- One row of the progress table, written after a node was processed. -/
structure ProgressRow where
  iterations : Nat
  nodes : Nat
  depth : Nat
  status : Status
  value : Fraction
  upper : Bound
  lower : Bound
deriving DecidableEq

/-- Something worth telling. -/
inductive Notice where
  | searching (items capacity limit : Nat)
  | limitReached (limit : Nat) (best bound : Bound)
  | classified (node depth : Nat) (value : Fraction) (status : Status) (lower upper : Bound)
  | heuristicSolution (solution : Solution) (value : Fraction) (node : Nat)
  | completionImproved (node rounds : Nat)
  | newIncumbent (value : Fraction) (created : Nat)
  | finished (statistics : Statistics)
  | tableTitle (items capacity : Nat)
  | tableHeader
  | tableSolution (solution : Solution) (value : Fraction)
  | tableRow (row : ProgressRow)
  | tableEnd (iterations nodes : Nat)
deriving DecidableEq

namespace Notice

def level : Notice → Level
  | .classified .. | .heuristicSolution .. | .completionImproved .. => .debug
  | .limitReached .. => .warn
  | _ => .info

/-- The cells of a row of the table, right-aligned in columns of ten characters. -/
def cells (texts : List String) : String :=
  " ".intercalate (texts.map (Decimal.padLeft 10))

/-- A finite bound is shown with three decimals. -/
def boundCell : Bound → String
  | .finite value => Decimal.fixed 3 value.toBinary64
  | bound => bound.text

def rowText (row : ProgressRow) : String :=
  cells [s!"{row.iterations}/{row.nodes}", toString row.depth, row.status.text,
    Decimal.fixed 3 row.value.toBinary64, boundCell row.upper, boundCell row.lower]

def text : Notice → String
  | .searching items capacity limit =>
    s!"searching {items} items with capacity {capacity} (iteration limit {limit})"
  | .limitReached limit best bound =>
    s!"iteration limit of {limit} reached (best {best} / bound {bound})"
  | .classified node depth value status lower upper =>
    s!"node {node} (depth {depth}, value {value}) is {status} - lb {lower} ub {upper}"
  | .heuristicSolution solution value node =>
    s!"heuristic solution {solution} of value {value} at node {node}"
  | .completionImproved node rounds =>
    s!"greedy completion of node {node} improved in {rounds} round(s)"
  | .newIncumbent value created => s!"new incumbent of value {value} ({created} nodes created)"
  | .finished statistics => s!"search finished: {statistics}"
  | .tableTitle items capacity => s!"Searching an instance of {items} items (capacity {capacity})"
  | .tableHeader => cells ["Nodes", "Depth", "Status", "Value", "UB", "LB"]
  | .tableSolution solution value =>
    s!"\tNew solution found by heuristics: {solution} of value {value}"
  | .tableRow row => rowText row
  | .tableEnd iterations nodes =>
    s!"Search finished in {iterations} iterations and {nodes} created nodes."

end Notice

end Knapsack.Search
