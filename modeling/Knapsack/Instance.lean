import Knapsack.Fraction

/-! # Instances of the binary knapsack problem

An instance lists items and gives the capacity of the sack. Weights and values have 32 bits and the
capacity has 64, which is what keeps every relaxed value an exact fraction.
-/

namespace Knapsack

/-- Something that may be packed. -/
structure Item where
  weight : UInt32
  value : UInt32
deriving DecidableEq

/-- The value of an item per unit of its weight. -/
inductive Density where
  | finite (ratio : Fraction)
  | infinite
deriving DecidableEq

namespace Density

/-- Every finite density is below the infinite one. -/
def compare : Density → Density → Ordering
  | .finite a, .finite b => Ord.compare a b
  | .finite _, .infinite => .lt
  | .infinite, .finite _ => .gt
  | .infinite, .infinite => .eq

instance : Ord Density := ⟨compare⟩

end Density

/-- An item that weighs nothing is infinitely dense: it can be packed for free. -/
def Item.density (item : Item) : Density :=
  if h : item.weight.toNat = 0 then .infinite
  else .finite (.reduce item.value.toNat item.weight.toNat h)

/-- A sequence of items and the capacity of the sack. -/
structure Instance where
  items : List Item
  capacity : UInt64
deriving DecidableEq

/-- An item and its position in the instance; its density is kept, because an order compares it
often. -/
structure IndexedItem where
  index : Nat
  item : Item
  density : Density
  density_eq : density = item.density
deriving DecidableEq

/-- The item at a position. -/
def Item.atIndex (item : Item) (index : Nat) : IndexedItem := ⟨index, item, item.density, rfl⟩

/-- Denser items come first, and items of one density by increasing index. -/
def IndexedItem.precedes (a b : IndexedItem) : Bool :=
  match compare a.density b.density with
  | .gt => true
  | .lt => false
  | .eq => a.index ≤ b.index

namespace Instance

def size (inst : Instance) : Nat := inst.items.length

def isEmpty (inst : Instance) : Bool := inst.items.isEmpty

/-- The items that the given indices name; an index that names none is passed over. -/
def indexed (inst : Instance) (indices : List Nat) : List IndexedItem :=
  indices.filterMap fun index => inst.items[index]?.map (·.atIndex index)

/-- The named items by decreasing density. -/
def byDensity (inst : Instance) (indices : List Nat) : List IndexedItem :=
  (inst.indexed indices).mergeSort IndexedItem.precedes

/-- The weight of the marked items. -/
def markedWeight (inst : Instance) (marks : List Bool) : Nat :=
  (inst.items.zip marks).foldl (fun weight (item, marked) =>
    if marked then weight + item.weight.toNat else weight) 0

/-- Whether every index names an item. -/
def valid (inst : Instance) (indices : List Nat) : Bool := indices.all (· < inst.size)

/-- The indices by decreasing density. Ordering several indices looks every one of them up, so all
of them have to name an item; fewer than two need no order and come back as they are. -/
def densityOrder? (inst : Instance) (indices : List Nat) : Option (List Nat) :=
  if indices.length < 2 then some indices
  else if inst.valid indices then some ((inst.byDensity indices).map (·.index))
  else none

end Instance

end Knapsack
