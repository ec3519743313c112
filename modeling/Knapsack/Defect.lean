import Knapsack.Solution
import Knapsack.Status

/-! # Broken contracts

A strategy that breaks its contract, or an operation whose result cannot be represented, ends the
search at once. Such a defect is never recovered from, unlike an `Error`.
-/

namespace Knapsack

/-- What made a computation stop without an answer. -/
inductive Defect where
  | arithmetic (fault : ArithmeticFault)
  | indexOutOfBounds
  | overflow
  | infeasibleRecord (solution : Solution)
  | fractionalRecord (solution : Solution)
  | fixedPartChanged
  | unfitHeuristicSolution (solution : Solution)
  | childless (node : Nat)
  | unrefinedChild (node : Nat)
  | illegalStatus (node : Nat) (source target : Status)
  | orphan (node parent : Nat)
deriving DecidableEq

/-- The text of a defect; an index that is out of bounds and an overflow have none. -/
def Defect.message? : Defect → Option String
  | .arithmetic fault => some fault.message
  | .indexOutOfBounds | .overflow => none
  | .infeasibleRecord solution => some s!"only feasible solutions can be recorded: {solution}"
  | .fractionalRecord solution => some s!"only integral solutions can be recorded: {solution}"
  | .fixedPartChanged =>
    some "the relaxation is not allowed to change the fixed part of a solution"
  | .unfitHeuristicSolution solution =>
    some s!"heuristics must yield feasible integral solutions: {solution}"
  | .childless node => some s!"node {node} is fractional but has no child"
  | .unrefinedChild node =>
    some s!"the children of node {node} must be more constrained than their parent"
  | .illegalStatus node source target => some s!"node {node} cannot go from {source} to {target}"
  | .orphan node parent => some s!"node {node} created before its parent {parent}"

/-- An integer that has to fit in 128 bits. -/
def word (n : Nat) : Except Defect Nat :=
  if n ≤ Fraction.widthLimit then .ok n else .error .overflow

/-- The difference of two integers, which cannot be negative. -/
def difference (minuend subtrahend : Nat) : Except Defect Nat :=
  if subtrahend ≤ minuend then .ok (minuend - subtrahend) else .error .overflow

/-- A computation fails with an error of its caller or with a defect. -/
inductive Failure where
  | error (error : Error)
  | defect (defect : Defect)
deriving DecidableEq

/-- The outcome of exact arithmetic, as part of a computation that may fail otherwise. -/
def exactly {α : Type} (outcome : Except ArithmeticFault α) : Except Defect α :=
  outcome.mapError .arithmetic

/-- A broken contract, as part of a computation that may also fail with an error. -/
def Failure.ofDefect {α : Type} (outcome : Except Defect α) : Except Failure α :=
  outcome.mapError .defect

/-- An error of the caller, as part of a computation that may also break a contract. -/
def Failure.ofError {α : Type} (outcome : Except Error α) : Except Failure α :=
  outcome.mapError .error

end Knapsack
