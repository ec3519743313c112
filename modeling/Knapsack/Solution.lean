import Knapsack.Decimal.Fixed
import Knapsack.Error
import Knapsack.Instance

/-! # Fractional and integral solutions

A solution says how much of every item is packed. It comes from a relaxation, and then may pack
fractions of items, or from a heuristic, and then is integral.
-/

namespace Knapsack

/-- One fraction for each item of an instance. -/
structure Solution where
  inst : Instance
  selection : List Fraction
  covers : selection.length = inst.size
deriving DecidableEq

namespace Solution

/-- The solution with the given selection, which has to cover exactly the items. -/
def ofSelection (inst : Instance) (selection : List Fraction) : Except Error Solution :=
  if covers : selection.length = inst.size then .ok ⟨inst, selection, covers⟩
  else .error (.lengthMismatch inst.size selection.length)

/-- The integral solution that packs the marked items. -/
def ofPacked (inst : Instance) (packed : List Bool) : Except Error Solution :=
  ofSelection inst (packed.map fun p => if p then 1 else 0)

/-- Two solutions are the same when they select the same. -/
def sameSelection (a b : Solution) : Bool := a.selection == b.selection

/-- Adds a measure of an item, scaled by how much of the item is packed, to a sum. -/
def account (measure : Item → UInt32) (sum : Fraction) (entry : Item × Fraction) :
    Except ArithmeticFault Fraction := do
  sum.add (← entry.2.mul (.ofNat (measure entry.1).toNat))

/-- The sum over the items of a measure of the item, scaled by how much of it is packed. Items are
accounted for one at a time, so the first product or partial sum that is too wide is the fault. -/
def total (solution : Solution) (measure : Item → UInt32) : Except ArithmeticFault Fraction :=
  (solution.inst.items.zip solution.selection).foldlM (account measure) 0

/-- The value of what is packed. -/
def value (solution : Solution) : Except ArithmeticFault Fraction := solution.total (·.value)

/-- The weight of what is packed. -/
def weight (solution : Solution) : Except ArithmeticFault Fraction := solution.total (·.weight)

/-- Whether the capacity is respected and no item is packed more than once. -/
def isFeasible (solution : Solution) : Except ArithmeticFault Bool := do
  let weight ← solution.weight
  return weight ≤ .ofNat solution.inst.capacity.toNat && solution.selection.all (· ≤ 1)

/-- Whether every item is packed an integral number of times. -/
def isIntegral (solution : Solution) : Bool := solution.selection.all (·.isInteger)

/-- The indices at which a selection satisfies a condition. -/
def indicesWhere (solution : Solution) (condition : Fraction → Bool) : List Nat :=
  solution.selection.zipIdx.filterMap fun (taken, index) =>
    if condition taken then some index else none

/-- The items of which only a part is packed. -/
def fractionalIndices (solution : Solution) : List Nat := solution.indicesWhere (!·.isInteger)

/-- The items that are packed once. -/
def packedIndices (solution : Solution) : List Nat := solution.indicesWhere (· == 1)

/-- Integers are exact, and other entries are shown with one decimal. -/
def text (solution : Solution) : String :=
  let entry (taken : Fraction) : String :=
    if taken.isInteger then taken.text else Decimal.fixed 1 taken.toBinary64
  "[" ++ "|".intercalate (solution.selection.map entry) ++ "]"

instance : ToString Solution := ⟨text⟩

end Solution

end Knapsack
