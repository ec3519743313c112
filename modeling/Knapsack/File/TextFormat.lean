import Knapsack.Instance
import Knapsack.Text.Character

/-! # The plain text format of instances

The first line that counts gives the capacity and the number of items, and each of the others gives
the value and then the weight of one item. Empty lines do not count, and neither do comments: a line
that is a `c`, alone or followed by white space. The first line that cannot be read is the error;
only a text without such a line is checked for its header and its number of items.
-/

namespace Knapsack.TextFormat

/-- Why a text is not an instance. -/
inductive Fault where
  | invalidUtf8
  | unexpectedLine (line : List Char)
  | invalidDigit
  | tooLarge
  | missingHeader
  | wrongCount (expected found : Nat)
deriving DecidableEq

def Fault.message : Fault → String
  | .invalidUtf8 => "io error stream did not contain valid UTF-8"
  | .unexpectedLine line => s!"ill formed instance: unexpected line '{String.ofList line}'"
  | .invalidDigit => "parse int invalid digit found in string"
  | .tooLarge => "parse int number too large to fit in target type"
  | .missingHeader => "ill formed instance: missing header"
  | .wrongCount expected found =>
    s!"ill formed instance: expected {expected} items but found {found}"

/-- The lines of a file; one that is not valid UTF-8 has no text. -/
def lines (bytes : List UInt8) : List (Option (List Char)) :=
  (bytes.splitOn 0x0a).map fun line => (String.fromUTF8? ⟨line.toArray⟩).map (·.toList)

/-- A `c` that ends the line or is followed by white space opens a comment. -/
def isComment : List Char → Bool
  | ['c'] => true
  | 'c' :: next :: _ => Text.isBlank next
  | _ => false

/-- Two runs of decimal digits with white space between them. -/
def digitRuns? (line : List Char) : Option (List Char × List Char) :=
  let (first, rest) := line.span Text.isDecimalDigit
  let (gap, second) := rest.span Text.isBlank
  if first.isEmpty || gap.isEmpty || second.isEmpty || !second.all Text.isDecimalDigit then none
  else some (first, second)

/-- One more digit of a number, which has to be an ASCII digit and to keep below the bound. -/
def digit (bound number : Nat) (c : Char) : Except Fault Nat :=
  if !c.isDigit then .error .invalidDigit
  else
    let next := 10 * number + (c.toNat - '0'.toNat)
    if bound ≤ next then .error .tooLarge else .ok next

/-- The number that a run of digits stands for; the first digit that is not acceptable is the
fault. -/
def number (bound : Nat) (run : List Char) : Except Fault Nat := run.foldlM (digit bound) 0

/-- The line that gives the capacity and then the number of items. -/
structure Header where
  capacity : UInt64
  count : Nat
deriving DecidableEq

/-- What has been read so far, with the latest item first. -/
structure Draft where
  header? : Option Header := none
  items : List Item := []
deriving DecidableEq

/-- Reads a line that counts. The capacity is read before the number of items, but the weight of
an item is read before its value, which stands in front of it. -/
def readPair (draft : Draft) (first second : List Char) : Except Fault Draft :=
  match draft.header? with
  | none => do
    let capacity ← number UInt64.size first
    let count ← number UInt64.size second
    return { draft with header? := some ⟨.ofNat capacity, count⟩ }
  | some _ => do
    let weight ← number UInt32.size second
    let value ← number UInt32.size first
    return { draft with items := ⟨.ofNat weight, .ofNat value⟩ :: draft.items }

/-- Reads one line. -/
def readLine (draft : Draft) : Option (List Char) → Except Fault Draft
  | none => .error .invalidUtf8
  | some line =>
    let line := Text.trim line
    if line.isEmpty || isComment line then .ok draft
    else
      match digitRuns? line with
      | none => .error (.unexpectedLine line)
      | some (first, second) => readPair draft first second

/-- The instance that a draft describes, once all lines have been read. -/
def finish (draft : Draft) : Except Fault Instance :=
  match draft.header? with
  | none => .error .missingHeader
  | some header =>
    if draft.items.length = header.count then .ok ⟨draft.items.reverse, header.capacity⟩
    else .error (.wrongCount header.count draft.items.length)

/-- The instance in a file of this format. -/
def read (bytes : List UInt8) : Except Fault Instance := do
  finish (← (lines bytes).foldlM readLine {})

end Knapsack.TextFormat
