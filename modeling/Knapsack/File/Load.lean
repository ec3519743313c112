import Knapsack.File.JsonFormat
import Knapsack.File.TextFormat

/-! # Instance files

A file whose name ends in `.json` holds a document, and any other holds plain text.
-/

namespace Knapsack

/-- What a path leads to. -/
inductive File where
  | missing
  | directory
  | contents (bytes : List UInt8)
deriving DecidableEq

/-- Why an instance cannot be loaded. -/
inductive LoadFault where
  | notFound
  | isDirectory
  | text (fault : TextFormat.Fault)
  | json (fault : Json.Fault)
deriving DecidableEq

def LoadFault.message : LoadFault → String
  | .notFound => "io error No such file or directory (os error 2)"
  | .isDirectory => "io error Is a directory (os error 21)"
  | .text fault => fault.message
  | .json .malformed => "json document breaks the grammar"
  | .json .mismatched => "json document does not describe an instance"
  | .json .truncated => "json document stops too early"

/-- What follows the last separator of a text; the whole text when there is none. -/
def lastPart (separator : Char) (text : List Char) : List Char :=
  (text.reverse.takeWhile (· != separator)).reverse

/-- What follows the last dot of a file name, provided that something precedes the dot. -/
def extension? (name : List Char) : Option (List Char) :=
  let extension := lastPart '.' name
  if extension.length + 1 < name.length then some extension else none

/-- Whether the file at a path is named like a JSON document; the case of ASCII letters does not
count. -/
def isJsonPath (path : String) : Bool :=
  (extension? (lastPart '/' path.toList)).any fun extension =>
    extension.map Char.toLower == ['j', 's', 'o', 'n']

/-- The instance in the file at a path. -/
def File.load (path : String) : File → Except LoadFault Instance
  | .missing => .error .notFound
  | .directory => .error .isDirectory
  | .contents bytes =>
    if isJsonPath path then (JsonFormat.read bytes).mapError .json
    else (TextFormat.read bytes).mapError .text

end Knapsack
