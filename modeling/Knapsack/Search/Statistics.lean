import Knapsack.Status

/-! # Counters of a search -/

namespace Knapsack.Search

/-- The work done by a search. -/
structure Statistics where
  nodesCreated : Nat := 0
  iterations : Nat := 0
  infeasible : Nat := 0
  pruned : Nat := 0
  feasible : Nat := 0
  branched : Nat := 0
  heuristicSolutions : Nat := 0
deriving DecidableEq

namespace Statistics

/-- Accounts for a node that has just been classified. -/
def record (statistics : Statistics) (status : Status) : Statistics :=
  let counted := { statistics with iterations := statistics.iterations + 1 }
  match status with
  | .infeasible => { counted with infeasible := counted.infeasible + 1 }
  | .pruned => { counted with pruned := counted.pruned + 1 }
  | .feasible => { counted with feasible := counted.feasible + 1 }
  | .branched => { counted with branched := counted.branched + 1 }
  | .unknown | .enqueued => counted

def text (s : Statistics) : String :=
  s!"{s.iterations} iterations, {s.nodesCreated} nodes created " ++
    s!"({s.infeasible} infeasible, {s.pruned} pruned, {s.feasible} feasible, " ++
    s!"{s.branched} branched), {s.heuristicSolutions} heuristic solutions"

instance : ToString Statistics := ⟨text⟩

end Statistics

end Knapsack.Search
