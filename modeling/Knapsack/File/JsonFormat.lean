import Knapsack.Instance
import Knapsack.Json.Reader

/-! # The JSON format of instances

An instance is an object with its items and its capacity, and an item one with its weight and its
value. Members may come in any order and others are skipped, but none of the expected ones may be
missing or repeated. An array of the two values in that order stands for an object as well.
-/

namespace Knapsack.JsonFormat

open Json

/-- A natural number below a bound. -/
def readNatural (bound : Nat) : Reader Nat := do
  let first ← upcoming
  if beginsNumber first then
    match ← readNumber with
    | .natural n => if n < bound then return n else throw .mismatched
    | .other => throw .mismatched
  else reject first

/-- What a record is made of: the names of its two members and how to read each of them. -/
structure Layout (α β : Type) where
  firstName : List UInt8
  readFirst : Reader α
  secondName : List UInt8
  readSecond : Reader β

/-- The members that have been read so far. -/
structure Members (α β : Type) where
  first? : Option α := none
  second? : Option β := none

/-- Whether an array goes on with another element, in front of which the reader then stands; the
closing bracket stays where it is. -/
def nextElement (isFirst : Bool) : Reader Bool := do
  let next ← upcoming
  if next = byte ']' then return false
  else if isFirst then return true
  else if next = byte ',' then
    discard
    if (← upcoming) = byte ']' then throw .malformed
    return true
  else throw .malformed

/-- Passes over the closing bracket of an array that holds enough. -/
def closeArray : Reader Unit := do
  if (← upcoming) ≠ byte ']' then throw .malformed
  discard

/-- Whether an object goes on with another member, whose quote is then passed over; the closing
brace stays where it is. -/
def nextMember (isFirst : Bool) : Reader Bool := do
  let next ← upcoming
  if next = byte '\x7d' then return false
  let quote ←
    if isFirst then pure next
    else if next = byte ',' then do
      discard
      upcoming
    else throw .malformed
  if quote ≠ byte '"' then throw .malformed
  discard
  return true

/-- Passes over the colon after the name of a member. -/
def colon : Reader Unit := do
  if (← upcoming) ≠ byte ':' then throw .malformed
  discard

/-- Reads one member, whose opening quote has been passed over. A repeated member is rejected at its
name. -/
def readMember {α β : Type} (layout : Layout α β) (members : Members α β) :
    Reader (Members α β) := do
  let name ← readString
  if name = layout.firstName then
    if members.first?.isSome then throw .mismatched
    colon
    return { members with first? := some (← layout.readFirst) }
  else if name = layout.secondName then
    if members.second?.isSome then throw .mismatched
    colon
    return { members with second? := some (← layout.readSecond) }
  else
    colon
    skipValue
    return members

/-- Reads members up to the closing brace. A member is longer than one byte, so the length of the
document is fuel enough. -/
def readMembers {α β : Type} (layout : Layout α β) :
    (fuel : Nat) → (isFirst : Bool) → Members α β → Reader (Members α β)
  | 0, _, _ => throw .truncated
  | fuel + 1, isFirst, members => do
    if ← nextMember isFirst then
      readMembers layout fuel false (← readMember layout members)
    else return members

/-- An object with the two members of a record; both have to be there. -/
def readObject {α β : Type} (layout : Layout α β) : Reader (α × β) := do
  discard
  let members ← readMembers layout ((← get).length + 1) true {}
  match members.first?, members.second? with
  | some first, some second =>
    discard
    return (first, second)
  | _, _ => throw .mismatched

/-- An array with the two values of a record. One that is too short holds something else than
expected, and one that is too long breaks off at the wrong place. -/
def readTuple {α β : Type} (layout : Layout α β) : Reader (α × β) := do
  discard
  unless ← nextElement true do throw .mismatched
  let first ← layout.readFirst
  unless ← nextElement false do throw .mismatched
  let second ← layout.readSecond
  closeArray
  return (first, second)

/-- A record as an object or as an array. -/
def readRecord {α β : Type} (layout : Layout α β) : Reader (α × β) := do
  let first ← upcoming
  if first = byte '\x7b' then readObject layout
  else if first = byte '[' then readTuple layout
  else reject first

/-- Reads elements up to the closing bracket of an array. An element is longer than nothing, so the
length of the document is fuel enough. -/
def readElements {α : Type} (read : Reader α) : (fuel : Nat) → (isFirst : Bool) → Reader (List α)
  | 0, _ => throw .truncated
  | fuel + 1, isFirst => do
    if ← nextElement isFirst then
      let element ← read
      return element :: (← readElements read fuel false)
    else return []

/-- An array of any length. -/
def readList {α : Type} (read : Reader α) : Reader (List α) := do
  let first ← upcoming
  if first = byte '[' then
    discard
    let elements ← readElements read ((← get).length + 1) true
    discard
    return elements
  else reject first

/-- An item has a weight and a value of 32 bits. -/
def readItem : Reader Item := do
  let (weight, value) ← readRecord {
    firstName := word "weight"
    readFirst := readNatural UInt32.size
    secondName := word "value"
    readSecond := readNatural UInt32.size }
  return ⟨.ofNat weight, .ofNat value⟩

/-- An instance has a list of items and a capacity of 64 bits. -/
def readInstance : Reader Instance := do
  let (items, capacity) ← readRecord {
    firstName := word "items"
    readFirst := readList readItem
    secondName := word "capacity"
    readSecond := readNatural UInt64.size }
  return ⟨items, .ofNat capacity⟩

/-- Nothing but white space may follow. -/
def readEnd : Reader Unit := do
  skipSpace
  if (← peek?).isSome then throw .malformed

/-- The instance in a document of this format. -/
def read (bytes : List UInt8) : Except Fault Instance :=
  (do
    let inst ← readInstance
    readEnd
    return inst : Reader Instance).run' bytes

end Knapsack.JsonFormat
