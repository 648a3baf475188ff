/-!
# Arguments

The arguments of the program name a command and give it operands and options. They are read from the first one on,
and what is wrong with the first one that does not fit is reported. A request for help or for the version counts as
soon as it is met.

An option takes its value from the same argument or from the next one, and none may be given twice; only the format
of the output may be given both before and after the name of the command, and the latter counts. After `--` every
argument is an operand, as is a single `-` anywhere.
-/

namespace PathContainment

/-- How answers are written. -/
inductive OutputFormat where
  | text
  | json
  deriving DecidableEq, Repr

namespace OutputFormat

def word : OutputFormat → String
  | text => "text"
  | json => "json"

def ofWord? (s : String) : Option OutputFormat := [text, json].find? (·.word = s)

end OutputFormat

/-- What the program is to do. -/
inductive Command where
  /-- Tell whether a pattern contains a path. -/
  | containment (pattern path : String)
  /-- Tell which patterns of a file contain the paths. The patterns may be wanted as they are written. -/
  | query (patternsFile : Option String) (asWritten : Bool) (paths : List String)
  /-- Put paths into normal form. -/
  | normalize (paths : List String)
  /-- Tell of which kinds paths are. -/
  | check (paths : List String)
  deriving DecidableEq, Repr

/-- A command, and the format of its output if one was asked for. -/
structure Invocation where
  format : Option OutputFormat
  command : Command
  deriving DecidableEq, Repr

/-- The commands by name. -/
inductive CommandName where
  | containment
  | query
  | normalize
  | check
  deriving DecidableEq, Repr

namespace CommandName

def word : CommandName → String
  | containment => "match"
  | query => "query"
  | normalize => "normalize"
  | check => "check"

def all : List CommandName := [containment, query, normalize, check]

def ofWord? (s : String) : Option CommandName := all.find? (·.word = s)

/-- The names of the operands, and whether the last of them may be repeated. -/
def operands : CommandName → List String × Bool
  | containment => (["PATTERN", "PATH"], false)
  | _ => (["PATHS"], true)

end CommandName

/-- Why arguments ask for nothing. -/
inductive UsageError where
  | noCommand
  | unknownCommand (name : String)
  | unknownOption (argument : String)
  | surplusOperand (argument : String)
  | missingOperand (name : String)
  | missingValue (option : String)
  | surplusValue (option : String)
  | badValue (option value : String)
  | repeatedOption (option : String)
  deriving DecidableEq, Repr

def UsageError.message : UsageError → String
  | noCommand => "a command is required"
  | unknownCommand name => s!"unknown command '{name}'"
  | unknownOption argument => s!"unexpected argument '{argument}'"
  | surplusOperand argument => s!"unexpected argument '{argument}'"
  | missingOperand name => s!"the argument <{name}> is required"
  | missingValue option => s!"a value is required for '--{option}'"
  | surplusValue option => s!"no value is allowed for '--{option}'"
  | badValue option value => s!"invalid value '{value}' for '--{option}'"
  | repeatedOption option => s!"'--{option}' cannot be given twice"

/-- What arguments ask for. -/
inductive Request where
  | run (invocation : Invocation)
  /-- Help on the program, or on one of its commands. -/
  | help (command : Option CommandName)
  | version
  /-- Nothing, since something is wrong with them. -/
  | misuse (error : UsageError)
  deriving DecidableEq, Repr

namespace Arguments

/-! ### Options -/

/-- An option with a value. -/
inductive Setting where
  | format
  | patternsFile
  deriving DecidableEq, Repr

namespace Setting

/-- The name after two hyphens. -/
def longName : Setting → String
  | format => "format"
  | patternsFile => "patterns"

/-- The letter after one hyphen. -/
def letter : Setting → Option Char
  | format => none
  | patternsFile => some 'p'

end Setting

/-- An option without a value. -/
inductive Flag where
  | asWritten
  | help
  | version
  deriving DecidableEq, Repr

namespace Flag

/-- The name after two hyphens. -/
def longName : Flag → String
  | asWritten => "no-normalize"
  | help => "help"
  | version => "version"

/-- The letter after one hyphen. -/
def letter : Flag → Option Char
  | asWritten => none
  | help => some 'h'
  | version => some 'V'

end Flag

/-- The options that can be given in some place. -/
structure Options where
  settings : List Setting
  flags : List Flag

/-- The options before the name of a command. -/
def leadingOptions : Options := { settings := [.format], flags := [.help, .version] }

/-- The options after the name of a command. -/
def optionsOf : CommandName → Options
  | .query => { settings := [.patternsFile, .format], flags := [.asWritten, .help] }
  | _ => { settings := [.format], flags := [.help] }

/-! ### Single arguments -/

/-- An argument by its form. -/
inductive Argument where
  | operand (text : String)
  /-- The mark after which there are only operands. -/
  | endOfOptions
  | flag (flag : Flag)
  /-- An option with a value, and the value if it is in the same argument. -/
  | setting (setting : Setting) (value : Option String)

/-- The value after the letter of an option, with or without a sign of equality. -/
def attachedValue : List Char → Option String
  | [] => none
  | '=' :: value => some (String.ofList value)
  | value => some (String.ofList value)

/-- What an argument is where the given options are known. What follows the letter of a flag is not looked at, since
the flags with letters are those that count as soon as they are met. -/
def Argument.ofText (known : Options) (text : String) : Except UsageError Argument :=
  match text.toList with
  | ['-', '-'] => .ok .endOfOptions
  | '-' :: '-' :: rest =>
    let name := String.ofList (rest.takeWhile (· ≠ '='))
    let value := (rest.dropWhile (· ≠ '=')).tail?.map String.ofList
    match known.settings.find? (·.longName = name), known.flags.find? (·.longName = name) with
    | some s, _ => .ok (.setting s value)
    | none, some f => if value.isSome then .error (.surplusValue name) else .ok (.flag f)
    | none, none => .error (.unknownOption text)
  | '-' :: c :: rest =>
    match known.settings.find? (·.letter = some c), known.flags.find? (·.letter = some c) with
    | some s, _ => .ok (.setting s (attachedValue rest))
    | none, some f => .ok (.flag f)
    | none, none => .error (.unknownOption text)
  | _ => .ok (.operand text)

/-- The argument can be the value of the option before it. -/
def isValue (text : String) : Bool := text = "-" || text.toList.head? ≠ some '-'

/-! ### All arguments

A request that is settled before the last argument is returned as an error. -/

/-- What was given so far before the name of a command, or after it. -/
structure Given where
  command : Option CommandName
  format : Option OutputFormat := none
  patternsFile : Option String := none
  asWritten : Bool := false
  operands : List String := []

namespace Given

def withFlag (given : Given) : Flag → Except Request Given
  | .help => .error (.help given.command)
  | .version => .error .version
  | .asWritten =>
    if given.asWritten then .error (.misuse (.repeatedOption Flag.asWritten.longName))
    else .ok { given with asWritten := true }

def withSetting (given : Given) (setting : Setting) (value : String) : Except Request Given :=
  match setting with
  | .format =>
    match OutputFormat.ofWord? value with
    | none => .error (.misuse (.badValue setting.longName value))
    | some format =>
      if given.format.isSome then .error (.misuse (.repeatedOption setting.longName))
      else .ok { given with format := some format }
  | .patternsFile =>
    if given.patternsFile.isSome then .error (.misuse (.repeatedOption setting.longName))
    else .ok { given with patternsFile := some value }

def withOperand (name : CommandName) (given : Given) (text : String) : Except Request Given :=
  if !name.operands.2 && name.operands.1.length ≤ given.operands.length then
    .error (.misuse (.surplusOperand text))
  else .ok { given with operands := given.operands ++ [text] }

/-- The command with the operands that were given. -/
def toCommand (given : Given) (name : CommandName) : Except Request Command :=
  match name.operands.1.drop given.operands.length with
  | missing :: _ => .error (.misuse (.missingOperand missing))
  | [] =>
    .ok <|
      match name with
      | .containment => .containment (given.operands.getD 0 "") (given.operands.getD 1 "")
      | .query => .query given.patternsFile given.asWritten given.operands
      | .normalize => .normalize given.operands
      | .check => .check given.operands

end Given

/-- Reads the arguments after the name of a command. -/
def afterName (name : CommandName) (given : Given) : List String → Except Request Given
  | [] => .ok given
  | argument :: rest =>
    match Argument.ofText (optionsOf name) argument with
    | .error e => .error (.misuse e)
    | .ok (.operand text) => do afterName name (← given.withOperand name text) rest
    | .ok .endOfOptions => rest.foldlM (Given.withOperand name) given
    | .ok (.flag flag) => do afterName name (← given.withFlag flag) rest
    | .ok (.setting setting (some value)) => do afterName name (← given.withSetting setting value) rest
    | .ok (.setting setting none) =>
      match rest with
      | [] => .error (.misuse (.missingValue setting.longName))
      | value :: rest =>
        if isValue value then do afterName name (← given.withSetting setting value) rest
        else .error (.misuse (.missingValue setting.longName))

/-- Help on the program, or on the one command that is named. That of the help itself is that of the program. -/
def helpOn : List String → Request
  | [] | ["help"] => .help none
  | name :: rest =>
    match CommandName.ofWord? name, rest with
    | some command, [] => .help (some command)
    | some _, more :: _ => .misuse (.unknownCommand more)
    | none, _ => .misuse (.unknownCommand name)

/-- Reads the name of a command and the arguments after it. What was given before is taken into account. -/
def fromName (leading : Given) (name : String) (rest : List String) : Except Request Request :=
  if name = "help" then .ok (helpOn rest)
  else
    match CommandName.ofWord? name with
    | none => .error (.misuse (.unknownCommand name))
    | some name => do
      let given ← afterName name { command := some name } rest
      return .run { format := given.format.or leading.format, command := ← given.toCommand name }

/-- Reads arguments from the first one on. -/
def fromStart (leading : Given) : List String → Except Request Request
  | [] => .error (.misuse .noCommand)
  | argument :: rest =>
    match Argument.ofText leadingOptions argument with
    | .error e => .error (.misuse e)
    | .ok (.operand name) => fromName leading name rest
    | .ok .endOfOptions => .error (.misuse .noCommand)
    | .ok (.flag flag) => do fromStart (← leading.withFlag flag) rest
    | .ok (.setting setting (some value)) => do fromStart (← leading.withSetting setting value) rest
    | .ok (.setting setting none) =>
      match rest with
      | [] => .error (.misuse (.missingValue setting.longName))
      | value :: rest =>
        if isValue value then do fromStart (← leading.withSetting setting value) rest
        else .error (.misuse (.missingValue setting.longName))

end Arguments

/-- What the arguments of the program ask for. -/
def Request.ofArguments (arguments : List String) : Request :=
  match Arguments.fromStart { command := none } arguments with
  | .ok request | .error request => request

end PathContainment
