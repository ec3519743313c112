import Knapsack.Decimal.Shortest
import Knapsack.Instance

/-! # Writing JSON

Documents are compact: no white space, and members in the order in which they are given. Names and
strings here are plain words, which need no escapes.
-/

namespace Knapsack.Json

/-- A word between quotes. -/
def quoted (word : String) : String := "\"" ++ word ++ "\""

/-- The elements of an array are separated by commas. -/
def array (elements : List String) : String := "[" ++ ",".intercalate elements ++ "]"

/-- The members of an object are separated by commas. -/
def object (members : List (String × String)) : String :=
  let member (m : String × String) : String := quoted m.1 ++ ":" ++ m.2
  "\x7b" ++ ",".intercalate (members.map member) ++ "\x7d"

def boolean (b : Bool) : String := if b then "true" else "false"

/-- A missing value is written as null. -/
def optional {α : Type} (write : α → String) (value? : Option α) : String :=
  value?.elim "null" write

/-- A double is written with the fewest digits that read back; JSON has no infinities. -/
def number (x : Binary64) : String := (Decimal.shortestText? x).getD "null"

end Json

/-- The document of an item. -/
def Item.json (item : Item) : String :=
  Json.object [("weight", toString item.weight.toNat), ("value", toString item.value.toNat)]

/-- The document of an instance. -/
def Instance.json (inst : Instance) : String :=
  Json.object [("items", Json.array (inst.items.map Item.json)),
    ("capacity", toString inst.capacity.toNat)]

end Knapsack
