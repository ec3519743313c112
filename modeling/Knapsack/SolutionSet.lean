import Knapsack.Bound
import Knapsack.Defect

/-! # The solutions found so far

A solution set records distinct feasible integral solutions in the order of their discovery and
remembers the best of them, the incumbent. It never forgets a solution, and the value of the
incumbent never drops.
-/

namespace Knapsack

/-- The solution whose value is to be beaten. -/
structure Incumbent where
  solution : Solution
  value : Fraction
deriving DecidableEq

/-- Recorded solutions in discovery order; `keepAll` tells whether solutions that do not improve
the incumbent are recorded too. -/
structure SolutionSet where
  keepAll : Bool
  recorded : List Solution
  incumbent? : Option Incumbent
deriving DecidableEq

namespace SolutionSet

/-- No solution yet. -/
def empty (keepAll : Bool) : SolutionSet := ⟨keepAll, [], none⟩

def size (set : SolutionSet) : Nat := set.recorded.length

def isEmpty (set : SolutionSet) : Bool := set.recorded.isEmpty

def best? (set : SolutionSet) : Option Solution := set.incumbent?.map (·.solution)

def bestValue? (set : SolutionSet) : Option Fraction := set.incumbent?.map (·.value)

/-- The value of the incumbent, and minus infinity when there is none. -/
def lowerBound (set : SolutionSet) : Bound := .ofValue? set.bestValue?

/-- Whether a solution with the same selection is recorded. -/
def contains (set : SolutionSet) (solution : Solution) : Bool :=
  set.recorded.any (·.sameSelection solution)

/-- The set after a solution of the given value was found, and whether it improves the incumbent. -/
def insert (set : SolutionSet) (solution : Solution) (value : Fraction) : SolutionSet × Bool :=
  let improves : Bool := set.lowerBound < .finite value
  if !improves && !set.keepAll then (set, improves)
  else if set.contains solution then (set, improves)
  else
    let incumbent? := if improves then some ⟨solution, value⟩ else set.incumbent?
    ({ set with recorded := set.recorded ++ [solution], incumbent? }, improves)

/-- Adds a solution, which has to be feasible and then integral. -/
def add (set : SolutionSet) (solution : Solution) : Except Defect (SolutionSet × Bool) := do
  unless ← exactly solution.isFeasible do throw (.infeasibleRecord solution)
  unless solution.isIntegral do throw (.fractionalRecord solution)
  return set.insert solution (← exactly solution.value)

end SolutionSet

end Knapsack
