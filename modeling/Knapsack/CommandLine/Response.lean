import Knapsack.CommandLine.Request
import Knapsack.File.Load
import Knapsack.Heuristic.Completion
import Knapsack.Observer.Panel
import Knapsack.Search.Run

/-! # Answering a command line

A response has the lines that are printed, the notices of the search and the exit code. Usage faults
have code 2, and files that cannot be loaded have code 1.
-/

namespace Knapsack.CommandLine

def RankingChoice.ranking : RankingChoice → Ranking
  | .best => .bestBound
  | .depth => .depthFirst
  | .breadth => .breadthFirst

def BranchingChoice.branching : BranchingChoice → Branching
  | .first => .firstFractional
  | .most => .mostFractional

def HeuristicChoice.heuristic : HeuristicChoice → Heuristic
  | .none => .none
  | .greedy => .completion

/-- What the program answers, and whether it ran a search, whose duration is then shown too. -/
structure Response where
  code : UInt32 := 0
  searched : Bool := false
  lines : List String := []
  notices : List Search.Notice := []
  complaint? : Option String := none

/-- The name and the version of the program. -/
def versionText : String := "knapsack-bnb 0.1.0"

def helpLines : List String := [
  "A modular branch-and-bound engine solving the 0/1 knapsack problem to optimality.",
  "",
  "Usage: knapsack-bnb [OPTIONS] <FNAME>",
  "",
  "Arguments:",
  "  <FNAME>  The path to the instance file (.json or plain text)",
  "",
  "Options:",
  "  -i, --iterations <ITERATIONS>  The maximum number of nodes to process [default: 10000]",
  "  -r, --ranking <RANKING>        The order in which the nodes are explored [default: best] " ++
    "[possible values: best, depth, breadth]",
  "  -b, --branching <BRANCHING>    How fractional nodes are split [default: first] " ++
    "[possible values: first, most]",
  "      --heuristic <HEURISTIC>    The primal heuristic used on fractional nodes " ++
    "[default: greedy] [possible values: none, greedy]",
  "  -v, --verbose...               Increase the verbosity (-v: progress table, " ++
    "-vv: every node)",
  "  -h, --help                     Print help",
  "  -V, --version                  Print version"]

/-- The least important notices that are shown. -/
def Options.level (options : Options) : Search.Level :=
  match options.verbosity with
  | 0 => .warn
  | 1 => .info
  | _ => .debug

/-- The search that some options ask for. -/
def Options.plan (options : Options) (inst : Instance) : Search.Plan :=
  let standard : Search.Config := {}
  { inst
    branching := (options.branching?.getD .first).branching
    heuristic := (options.heuristic?.getD .greedy).heuristic
    config := { iterationLimit := options.iterations?.getD standard.iterationLimit } }

/-- The report on a search that is over. -/
def report (completion : Search.Completion) (state : Search.State Frontier) (gap : Binary64) :
    List String :=
  let packed := (state.solutions.best?.elim [] (·.packedIndices)).map toString
  [ "Objective:  " ++ completion.value?.elim "-" (·.text),
    "Upper Bnd:  " ++ state.upperBound.text,
    "Lower Bnd:  " ++ state.lowerBound.text,
    "Gap:        " ++ Decimal.fixed 3 gap,
    "Aborted:    " ++ toString (!completion.isExact),
    "Solution:   [" ++ ", ".intercalate packed ++ "]",
    "Statistics: " ++ state.statistics.text ]

/-- The response of a computation that did not reach its end. -/
def Response.failed (message : String) : Response := { code := 1, complaint? := some message }

/-- The text of a failure. -/
def failureText : Failure → String
  | .error cause => cause.message
  | .defect cause => cause.message?.getD "index out of bounds"

/-- Solves the instance in a file. -/
def solve (options : Options) (path : String) (file : File) : Response :=
  match file.load path with
  | .error fault => .failed fault.message
  | .ok inst =>
    let plan := options.plan inst
    let ranking := (options.ranking?.getD .best).ranking
    match (Search.maximize plan).run (.initial plan (.empty ranking)) with
    | .error failure _ => .failed (failureText failure)
    | .ok completion state =>
      match state.gap, Panel.transcript [.tracker {}] state.journal with
      | .ok gap, .ok (_, told) =>
        { searched := true
          lines := report completion state gap
          notices := told.toList.filter (options.level.rank ≤ ·.level.rank) }
      | .error fault, _ | _, .error fault => .failed (failureText (.defect fault))

/-- Answers a request; the file is the one at the path that is asked for, if any. -/
def answer (request : Request) (file : File) : Response :=
  match request with
  | .help => { lines := helpLines }
  | .version => { lines := [versionText] }
  | .solve path options => solve options path file

/-- The response to a command line that cannot be understood. -/
def refuse (fault : UsageFault) : Response :=
  { code := 2, complaint? := some s!"error: {fault.message}" }

end Knapsack.CommandLine
