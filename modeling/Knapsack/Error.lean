/-! # Errors in what the caller asked for

These are violations of the contract on inputs, and the exhaustion of the budget of a search. A
strategy that breaks its own contract is a `Defect` instead.
-/

namespace Knapsack

/-- A failure that is reported to the caller. -/
inductive Error where
  | lengthMismatch (expected actual : Nat)
  | indexOutOfBounds (index length : Nat)
  | alreadyFixed (index : Nat)
  | invalidFixValue (value : Nat)
  | emptyFrontier
  | iterationLimitExceeded (limit : Nat)
deriving DecidableEq

def Error.message : Error → String
  | .lengthMismatch expected actual =>
    s!"length mismatch: expected {expected} entries but got {actual}"
  | .indexOutOfBounds index length => s!"index {index} is out of bounds (length {length})"
  | .alreadyFixed index => s!"item {index} is already fixed"
  | .invalidFixValue value => s!"invalid fixation value {value}: must be 0 or 1"
  | .emptyFrontier => "no more nodes to explore"
  | .iterationLimitExceeded limit =>
    s!"iteration limit of {limit} reached before the search completed"

end Knapsack
