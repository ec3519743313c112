/-! # What a command line asks for

Options come in any order, in long or short form. The verbosity counts how often it is given, and
every other option may be given once. The first problem from left to right decides, and asking for
help or for the version ends the reading.
-/

namespace Knapsack.CommandLine

/-- The rankings that can be chosen. -/
inductive RankingChoice where
  | best
  | depth
  | breadth
deriving DecidableEq

/-- The branching rules that can be chosen. -/
inductive BranchingChoice where
  | first
  | most
deriving DecidableEq

/-- The heuristics that can be chosen. -/
inductive HeuristicChoice where
  | none
  | greedy
deriving DecidableEq

def RankingChoice.ofName? (name : String) : Option RankingChoice :=
  if name = "best" then some .best
  else if name = "depth" then some .depth
  else if name = "breadth" then some .breadth
  else Option.none

def BranchingChoice.ofName? (name : String) : Option BranchingChoice :=
  if name = "first" then some .first
  else if name = "most" then some .most
  else Option.none

def HeuristicChoice.ofName? (name : String) : Option HeuristicChoice :=
  if name = "none" then some .none
  else if name = "greedy" then some .greedy
  else Option.none

/-- The options that have been given so far. -/
structure Options where
  path? : Option String := none
  iterations? : Option Nat := none
  ranking? : Option RankingChoice := none
  branching? : Option BranchingChoice := none
  heuristic? : Option HeuristicChoice := none
  verbosity : Nat := 0
deriving DecidableEq

/-- What the program is asked to do. -/
inductive Request where
  | solve (path : String) (options : Options)
  | help
  | version
deriving DecidableEq

/-- Why a command line cannot be understood. -/
inductive UsageFault where
  | unknownOption (name : String)
  | repeatedOption (name : String)
  | missingValue (name : String)
  | unexpectedValue (name : String)
  | invalidValue (name value : String)
  | extraOperand (operand : String)
  | missingPath
deriving DecidableEq

def UsageFault.message : UsageFault → String
  | .unknownOption name => s!"unexpected argument '{name}' found"
  | .repeatedOption name => s!"the argument '{name}' cannot be used multiple times"
  | .missingValue name => s!"a value is required for '{name}' but none was supplied"
  | .unexpectedValue name => s!"unexpected value for '{name}' found"
  | .invalidValue name value => s!"invalid value '{value}' for '{name}'"
  | .extraOperand operand => s!"unexpected argument '{operand}' found"
  | .missingPath => "the path of an instance file is required"

/-- An option that takes a value. -/
inductive Setting where
  | iterations
  | ranking
  | branching
  | heuristic
deriving DecidableEq

def Setting.name : Setting → String
  | .iterations => "--iterations"
  | .ranking => "--ranking"
  | .branching => "--branching"
  | .heuristic => "--heuristic"

/-- An option. -/
inductive Switch where
  | setting (setting : Setting)
  | verbose
  | help
  | version
deriving DecidableEq

/-- The option of a long name; names cannot be abbreviated. -/
def Switch.ofLong? (name : String) : Option Switch :=
  if name = "iterations" then some (.setting .iterations)
  else if name = "ranking" then some (.setting .ranking)
  else if name = "branching" then some (.setting .branching)
  else if name = "heuristic" then some (.setting .heuristic)
  else if name = "verbose" then some .verbose
  else if name = "help" then some .help
  else if name = "version" then some .version
  else none

/-- The option of a letter. -/
def Switch.ofShort? (letter : Char) : Option Switch :=
  if letter = 'i' then some (.setting .iterations)
  else if letter = 'r' then some (.setting .ranking)
  else if letter = 'b' then some (.setting .branching)
  else if letter = 'v' then some .verbose
  else if letter = 'h' then some .help
  else if letter = 'V' then some .version
  else none

/-- A natural number of 64 bits in decimal digits, perhaps with a plus sign in front. -/
def natural? (text : String) : Option Nat :=
  let digits := match text.toList with
    | '+' :: digits => digits
    | digits => digits
  if digits.isEmpty || !digits.all Char.isDigit then none
  else
    let n := digits.foldl (fun n c => 10 * n + (c.toNat - '0'.toNat)) 0
    if n < UInt64.size then some n else none

/-- The value of a setting that was not given before. -/
def readOnce {α : Type} (setting : Setting) (before? : Option α) (read : String → Option α)
    (value : String) : Except UsageFault (Option α) :=
  if before?.isSome then .error (.repeatedOption setting.name)
  else
    match read value with
    | none => .error (.invalidValue setting.name value)
    | some result => .ok (some result)

namespace Options

/-- Gives a value to a setting. -/
def give (options : Options) (setting : Setting) (value : String) : Except UsageFault Options :=
  match setting with
  | .iterations => do
    let iterations? ← readOnce setting options.iterations? natural? value
    return { options with iterations? }
  | .ranking => do
    let ranking? ← readOnce setting options.ranking? RankingChoice.ofName? value
    return { options with ranking? }
  | .branching => do
    let branching? ← readOnce setting options.branching? BranchingChoice.ofName? value
    return { options with branching? }
  | .heuristic => do
    let heuristic? ← readOnce setting options.heuristic? HeuristicChoice.ofName? value
    return { options with heuristic? }

/-- Takes an argument that is no option; there may be only one. -/
def addOperand (options : Options) (operand : String) : Except UsageFault Options :=
  if options.path?.isSome then .error (.extraOperand operand)
  else .ok { options with path? := some operand }

def countVerbose (options : Options) : Options :=
  { options with verbosity := options.verbosity + 1 }

/-- The request of a complete command line. -/
def finish (options : Options) : Except UsageFault Request :=
  match options.path? with
  | none => .error .missingPath
  | some path => .ok (.solve path options)

end Options

/-- What is known after an argument: more options, a setting whose value has to follow, or a request
that ends the reading. -/
inductive Progress where
  | options (options : Options)
  | awaiting (setting : Setting) (options : Options)
  | asked (request : Request)
deriving DecidableEq

/-- Whether an argument looks like an option. -/
def isOption (argument : String) : Bool :=
  argument.startsWith "-" && argument != "-"

/-- Reads a long option, without its dashes. -/
def readLong (options : Options) (text : String) : Except UsageFault Progress :=
  let name := String.ofList (text.toList.takeWhile (· != '='))
  let value? := match text.toList.dropWhile (· != '=') with
    | [] => none
    | _ :: value => some (String.ofList value)
  match Switch.ofLong? name, value? with
  | none, _ => .error (.unknownOption ("--" ++ name))
  | some (.setting setting), none => .ok (.awaiting setting options)
  | some (.setting setting), some value => do return .options (← options.give setting value)
  | some _, some _ => .error (.unexpectedValue ("--" ++ name))
  | some .verbose, none => .ok (.options options.countVerbose)
  | some .help, none => .ok (.asked .help)
  | some .version, none => .ok (.asked .version)

/-- Reads letters after a dash. What follows the letter of a setting is its value, perhaps after an
equals sign. -/
def readShort (options : Options) : List Char → Except UsageFault Progress
  | [] => .ok (.options options)
  | letter :: rest =>
    match Switch.ofShort? letter with
    | none => .error (.unknownOption (String.ofList ['-', letter]))
    | some .verbose => readShort options.countVerbose rest
    | some .help => .ok (.asked .help)
    | some .version => .ok (.asked .version)
    | some (.setting setting) =>
      match rest with
      | [] => .ok (.awaiting setting options)
      | '=' :: value => do return .options (← options.give setting (String.ofList value))
      | value => do return .options (← options.give setting (String.ofList value))

/-- Reads one argument. -/
def readArgument (options : Options) (argument : String) : Except UsageFault Progress :=
  if !isOption argument then do return .options (← options.addOperand argument)
  else
    match argument.toList with
    | '-' :: '-' :: text => readLong options (String.ofList text)
    | _ :: letters => readShort options letters
    | [] => .ok (.options options)

/-- Reads the arguments that follow some options. After two dashes all arguments are operands. -/
def readArguments (options : Options) : List String → Except UsageFault Request
  | [] => options.finish
  | argument :: rest => do
    if argument = "--" then
      (← rest.foldlM Options.addOperand options).finish
    else
      match ← readArgument options argument with
      | .options options => readArguments options rest
      | .asked request => return request
      | .awaiting setting options =>
        match rest with
        | [] => throw (.missingValue setting.name)
        | value :: rest =>
          if isOption value then throw (.missingValue setting.name)
          readArguments (← options.give setting value) rest

/-- The request that a command line makes. -/
def read (arguments : List String) : Except UsageFault Request := readArguments {} arguments

end Knapsack.CommandLine
