import Knapsack.Binary64

/-! # Reading JSON

A reader consumes a document byte by byte and fails at the first problem from left to right. It is
told what to expect: values of another kind are mismatches, and values that nobody asked for are
skipped after a check of their grammar alone.
-/

namespace Knapsack.Json

/-- Why a document cannot be read: it breaks the grammar, holds something else than expected, or
stops too early. -/
inductive Fault where
  | malformed
  | mismatched
  | truncated
deriving DecidableEq

/-- A reader of a part of a document. -/
abbrev Reader := StateT (List UInt8) (Except Fault)

/-- The code of an ASCII character. -/
def byte (c : Char) : UInt8 := c.toUInt8

/-- The codes of an ASCII word. -/
def word (text : String) : List UInt8 := text.toList.map byte

/-- Space, tab and the two characters that end lines. -/
def isSpace (b : UInt8) : Bool := b == 0x20 || b == 0x09 || b == 0x0a || b == 0x0d

def isDigit (b : UInt8) : Bool := byte '0' ≤ b && b ≤ byte '9'

/-- Skips white space. -/
def skipSpace : Reader Unit := modify (·.dropWhile isSpace)

/-- The next byte, which stays where it is. -/
def peek? : Reader (Option UInt8) := return (← get).head?

/-- Passes over the next byte. -/
def discard : Reader Unit := modify (·.drop 1)

/-- The next byte, which has to be there. -/
def take : Reader UInt8 := do
  match ← get with
  | [] => throw .truncated
  | b :: rest =>
    set rest
    return b

/-- The next byte after white space, which has to be there and stays where it is. -/
def upcoming : Reader UInt8 := do
  skipSpace
  match ← peek? with
  | none => throw .truncated
  | some b => return b

/-- Passes over the remaining letters of a word. -/
def expect (letters : List UInt8) : Reader Unit :=
  letters.forM fun letter => do
    if (← take) ≠ letter then throw .malformed

/-! ## Strings -/

/-- The value of a hexadecimal digit. -/
def hexDigit? (b : UInt8) : Option Nat :=
  if isDigit b then some (b.toNat - (byte '0').toNat)
  else if byte 'a' ≤ b ∧ b ≤ byte 'f' then some (b.toNat - (byte 'a').toNat + 10)
  else if byte 'A' ≤ b ∧ b ≤ byte 'F' then some (b.toNat - (byte 'A').toNat + 10)
  else none

/-- The value of some hexadecimal digits. -/
def hexNumber? (digits : List UInt8) : Option Nat :=
  digits.foldlM (fun n b => (hexDigit? b).map (16 * n + ·)) 0

/-- The byte that a one-letter escape stands for. -/
def escaped? (b : UInt8) : Option UInt8 :=
  if b = byte '"' ∨ b = byte '\\' ∨ b = byte '/' then some b
  else if b = byte 'b' then some 0x08
  else if b = byte 'f' then some 0x0c
  else if b = byte 'n' then some 0x0a
  else if b = byte 'r' then some 0x0d
  else if b = byte 't' then some 0x09
  else none

/-- Whether a code unit opens a surrogate pair. -/
def isLeading (unit : Nat) : Bool := 0xd800 ≤ unit && unit ≤ 0xdbff

/-- Whether a code unit closes a surrogate pair. -/
def isTrailing (unit : Nat) : Bool := 0xdc00 ≤ unit && unit ≤ 0xdfff

/-- The UTF-8 encoding of a code point. -/
def utf8 (codePoint : Nat) : List UInt8 := String.utf8EncodeChar (Char.ofNat codePoint)

/-- Where a reader stands in a string: between characters, after a backslash, among the four digits
of a code unit, or where the second half of a surrogate pair has to begin. -/
inductive Place where
  | plain
  | escape
  | digits (read : List UInt8) (leading? : Option Nat)
  | pairBackslash (leading : Nat)
  | pairLetter (leading : Nat)
deriving DecidableEq

/-- Where the reader stands after the last digit of a code unit, and the bytes that the unit adds to
the string. A skipped string may hold any unit, and otherwise surrogates have to come in pairs. -/
def closeUnit (skipped : Bool) (digits : List UInt8) (leading? : Option Nat) :
    Except Fault (Place × List UInt8) :=
  match hexNumber? digits with
  | none => .error .malformed
  | some unit =>
    if skipped then .ok (.plain, [])
    else
      match leading? with
      | none =>
        if isTrailing unit then .error .malformed
        else if isLeading unit then .ok (.pairBackslash unit, [])
        else .ok (.plain, utf8 unit)
      | some leading =>
        if isTrailing unit then
          .ok (.plain, utf8 (0x10000 + (leading - 0xd800) * 0x400 + (unit - 0xdc00)))
        else .error .malformed

/-- Where the reader stands after one more byte of a string, and the bytes that are added; the byte
is not the quote that ends the string. -/
def advance (skipped : Bool) (place : Place) (b : UInt8) : Except Fault (Place × List UInt8) :=
  match place with
  | .plain =>
    if b = byte '\\' then .ok (.escape, [])
    else if b < 0x20 then .error .malformed
    else .ok (.plain, [b])
  | .escape =>
    if b = byte 'u' then .ok (.digits [] none, [])
    else
      match escaped? b with
      | none => .error .malformed
      | some decoded => .ok (.plain, [decoded])
  | .digits read leading? =>
    let read := read ++ [b]
    if read.length < 4 then .ok (.digits read leading?, []) else closeUnit skipped read leading?
  | .pairBackslash leading =>
    if b = byte '\\' then .ok (.pairLetter leading, []) else .error .malformed
  | .pairLetter leading =>
    if b = byte 'u' then .ok (.digits [] (some leading), []) else .error .malformed

/-- The decoded bytes of a string up to its closing quote, and what follows the quote. -/
def scanString (skipped : Bool) :
    Place → List UInt8 → Except Fault (List UInt8 × List UInt8)
  | _, [] => .error .truncated
  | place, b :: rest =>
    if place = .plain ∧ b = byte '"' then .ok ([], rest)
    else
      match advance skipped place b with
      | .error fault => .error fault
      | .ok (next, added) =>
        match scanString skipped next rest with
        | .error fault => .error fault
        | .ok (content, rest) => .ok (added ++ content, rest)

/-- The content of a string after its opening quote, which has to be valid UTF-8. -/
def readString : Reader (List UInt8) := do
  let (content, rest) ← scanString false .plain (← get)
  set rest
  if ByteArray.validateUTF8 ⟨content.toArray⟩ then return content else throw .malformed

/-- Passes over a string after its opening quote. -/
def skipString : Reader Unit := do
  let (_, rest) ← scanString true .plain (← get)
  set rest

/-! ## Numbers -/

/-- A number: a natural number of 64 bits, or any other number. -/
inductive Number where
  | natural (n : Nat)
  | other
deriving DecidableEq

/-- The digits of a number that have been read: a significand of 64 bits and a power of ten. -/
structure Significand where
  value : Nat := 0
  power : Int := 0
deriving DecidableEq

/-- Takes the leading digits that the significand has room for, and counts them. -/
def Significand.absorb (value : Nat) : List UInt8 → Nat × Nat
  | [] => (value, 0)
  | b :: rest =>
    let next := 10 * value + (b.toNat - (byte '0').toNat)
    if UInt64.size ≤ next then (value, 0)
    else
      let (value, count) := absorb next rest
      (value, count + 1)

/-- The integral digits of a number; those that do not fit only raise the power of ten. -/
def Significand.ofInteger (digits : List UInt8) : Significand :=
  let (value, count) := absorb 0 digits
  ⟨value, digits.length - count⟩

/-- Adds the digits after the decimal point; those that do not fit are ignored. -/
def Significand.addDecimals (significand : Significand) (digits : List UInt8) : Significand :=
  let (value, count) := absorb significand.value digits
  ⟨value, significand.power - count⟩

/-- Whether a number is too large for a double. The significand and its power of ten are rounded to
doubles first, and then their product is; small numbers and zero are never too large. -/
def Significand.overflows (significand : Significand) : Bool :=
  if significand.value = 0 ∨ significand.power < 0 then false
  else if 308 < significand.power then true
  else
    let power := Binary64.ofNat (Nat.pow 10 significand.power.toNat)
    (Binary64.ofNat significand.value).mul power = .posInfinity

/-- A number that is no natural number; it has to be in the range of doubles. -/
def otherNumber (significand : Significand) : Reader Number :=
  if significand.overflows then throw .malformed else return .other

/-- Takes all digits that come next. -/
def takeDigits : Reader (List UInt8) := do
  let bytes ← get
  set (bytes.dropWhile isDigit)
  return bytes.takeWhile isDigit

/-- Takes digits of which there has to be at least one. -/
def takeSomeDigits : Reader (List UInt8) := do
  let digits ← takeDigits
  if digits.isEmpty then
    throw (if (← peek?).isNone then .truncated else .malformed)
  return digits

/-- The value of some digits. -/
def digitsValue (digits : List UInt8) : Nat :=
  digits.foldl (fun n b => 10 * n + (b.toNat - (byte '0').toNat)) 0

/-- Whether the next byte opens an exponent. -/
def atExponent : Reader Bool :=
  return (← peek?) == some (byte 'e') || (← peek?) == some (byte 'E')

/-- Passes over the sign of an exponent; it tells whether the exponent is negative. -/
def takeSign : Reader Bool := do
  let sign? ← peek?
  if sign? == some (byte '+') || sign? == some (byte '-') then discard
  return sign? == some (byte '-')

/-- The exponent of a number. A positive one that does not fit in 31 bits takes any number but zero
out of range. -/
def readExponent (significand : Significand) : Reader Number := do
  discard
  let negative ← takeSign
  let exponent := digitsValue (← takeSomeDigits)
  if Nat.pow 2 31 ≤ exponent then
    if !negative && significand.value ≠ 0 then throw .malformed
    return .other
  let shift : Int := if negative then Int.neg exponent else exponent
  otherNumber { significand with power := significand.power + shift }

/-- What may follow the integral digits of a number. -/
def readFraction (negative : Bool) (significand : Significand) : Reader Number := do
  if (← peek?) == some (byte '.') then
    discard
    let significand := significand.addDecimals (← takeSomeDigits)
    if ← atExponent then readExponent significand else otherNumber significand
  else if ← atExponent then readExponent significand
  else if significand.power = 0 then
    return if negative then .other else .natural significand.value
  else otherNumber significand

/-- A number, up to the first byte that does not belong to it. -/
def readNumber : Reader Number := do
  let negative := (← peek?) == some (byte '-')
  if negative then discard
  let digits ← takeSomeDigits
  if 1 < digits.length ∧ digits.head? = some (byte '0') then throw .malformed
  readFraction negative (.ofInteger digits)

/-- Takes digits of which there has to be at least one, also at the end of the document. -/
def skipDigits : Reader Unit := do
  if (← takeDigits).isEmpty then throw .malformed

/-- Passes over a number, of which only the grammar counts. -/
def skipNumber : Reader Unit := do
  if (← peek?) == some (byte '-') then discard
  let digits ← takeDigits
  if digits.isEmpty ∨ 1 < digits.length ∧ digits.head? = some (byte '0') then throw .malformed
  if (← peek?) == some (byte '.') then
    discard
    skipDigits
  if ← atExponent then
    discard
    let _ ← takeSign
    skipDigits

/-! ## Values of other kinds -/

/-- Whether a byte begins a number. -/
def beginsNumber (b : UInt8) : Bool := b == byte '-' || isDigit b

/-- The word that a letter begins, without that letter. -/
def literal? (b : UInt8) : Option (List UInt8) :=
  if b = byte 'n' then some (word "ull")
  else if b = byte 't' then some (word "rue")
  else if b = byte 'f' then some (word "alse")
  else none

/-- Rejects a value that is not of the expected kind. The value is read first, because it may break
the grammar; arrays and objects are rejected at their brackets. -/
def reject {α : Type} (first : UInt8) : Reader α := do
  if first = byte '[' ∨ first = byte '\x7b' then throw .mismatched
  else if first = byte '"' then
    discard
    let _ ← readString
  else if beginsNumber first then
    let _ ← readNumber
  else
    match literal? first with
    | none => throw .malformed
    | some letters =>
      discard
      expect letters
  throw .mismatched

/-- An array or an object that is being skipped. -/
inductive Bracket where
  | array
  | object
deriving DecidableEq

def Bracket.close : Bracket → UInt8
  | .array => byte ']'
  | .object => byte '\x7d'

/-- What comes next while a value is skipped: a value, the content of a bracket that was just
opened, or what follows a value. -/
inductive Expected where
  | value
  | content (bracket : Bracket)
  | more
deriving DecidableEq

/-- Passes over the name of a member and its colon. -/
def skipName : Reader Unit := do
  if (← upcoming) ≠ byte '"' then throw .malformed
  discard
  skipString
  if (← upcoming) ≠ byte ':' then throw .malformed
  discard

/-- Passes over what comes next, inside the brackets that are open. Every second step at least
consumes a byte, so the fuel never runs out when it is twice the length of the document. -/
def skip : (fuel : Nat) → Expected → List Bracket → Reader Unit
  | 0, _, _ => throw .truncated
  | fuel + 1, .value, outer => do
    let first ← upcoming
    if first = byte '[' then
      discard
      skip fuel (.content .array) outer
    else if first = byte '\x7b' then
      discard
      skip fuel (.content .object) outer
    else
      if first = byte '"' then
        discard
        skipString
      else if beginsNumber first then skipNumber
      else
        match literal? first with
        | none => throw .malformed
        | some letters =>
          discard
          expect letters
      skip fuel .more outer
  | fuel + 1, .content bracket, outer => do
    if (← upcoming) = bracket.close then
      discard
      skip fuel .more outer
    else
      if bracket = .object then skipName
      skip fuel .value (bracket :: outer)
  | _ + 1, .more, [] => return
  | fuel + 1, .more, bracket :: outer => do
    let next ← upcoming
    if next = bracket.close then
      discard
      skip fuel .more outer
    else if next = byte ',' then
      discard
      if bracket = .object then skipName
      skip fuel .value (bracket :: outer)
    else throw .malformed

/-- Passes over a value of any kind. -/
def skipValue : Reader Unit := do
  skip (2 * (← get).length + 2) .value []

end Knapsack.Json
