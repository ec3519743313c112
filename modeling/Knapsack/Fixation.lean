import Knapsack.Error
import Knapsack.Fraction

/-! # Fixations: partial assignments

A fixation says, for every item of an instance, whether it has been decided to pack it, to leave it
out, or nothing yet. Fixing an item can neither be undone nor repeated. The fixation of a node
identifies its place in the search tree.
-/

namespace Knapsack

/-- A decision about every item: packed, left out, or open. -/
structure Fixation where
  decisions : List (Option Bool)
deriving DecidableEq

namespace Fixation

/-- Nothing is decided about any of `length` items. -/
def unassigned (length : Nat) : Fixation := ⟨List.replicate length none⟩

def length (fixation : Fixation) : Nat := fixation.decisions.length

/-- The decision about one item, if there is such an item. -/
def get? (fixation : Fixation) (index : Nat) : Option (Option Bool) := fixation.decisions[index]?

/-- The items that are not fixed yet, by increasing index. -/
def openIndices (fixation : Fixation) : List Nat :=
  fixation.decisions.zipIdx.filterMap fun (decision, index) =>
    if decision.isNone then some index else none

/-- The number of fixed items. -/
def fixedCount (fixation : Fixation) : Nat := fixation.decisions.countP (·.isSome)

/-- Whether every item is fixed. -/
def isComplete (fixation : Fixation) : Bool := fixation.decisions.all (·.isSome)

/-- Fixes one item to 0 or 1. A bad value is reported first, then a bad index, then an item that is
already fixed. -/
def fix (fixation : Fixation) (index value : Nat) : Except Error Fixation :=
  if 1 < value then .error (.invalidFixValue value)
  else
    match fixation.get? index with
    | none => .error (.indexOutOfBounds index fixation.length)
    | some (some _) => .error (.alreadyFixed index)
    | some none => .ok ⟨fixation.decisions.set index (some (value == 1))⟩

/-- The two ways to fix one more item: leaving it out, and packing it. -/
def split (fixation : Fixation) (index : Nat) : Except Error (Fixation × Fixation) := do
  let left ← fixation.fix index 0
  let right ← fixation.fix index 1
  return (left, right)

/-- Whether a decision may stand below another one: an open item may be decided in any way. -/
def follows (child parent : Option Bool) : Bool := parent.isNone || parent == child

/-- Whether a fixation keeps every decision of its parent and decides at least one item more. -/
def refines (child parent : Fixation) : Bool :=
  child.length == parent.length && parent.fixedCount < child.fixedCount &&
    (child.decisions.zip parent.decisions).all fun (c, p) => follows c p

/-- One character for each item. -/
def text (fixation : Fixation) : String :=
  String.ofList <| fixation.decisions.map fun
    | none => '-'
    | some false => '0'
    | some true => '1'

end Fixation

/-- How much of an item a decision packs. -/
def Fraction.ofDecision (packed : Bool) : Fraction := if packed then 1 else 0

end Knapsack
