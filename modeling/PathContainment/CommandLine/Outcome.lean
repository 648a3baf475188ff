import PathContainment.CommandLine.Report
import PathContainment.Pattern.File
import PathContainment.Settings

/-!
# Outcomes

Running the program on a request gives an exit status, an output, and an error if there was one. The status is `0`
when all the paths that were asked about are contained in a pattern, `1` when they are not, and `2` when there was
an error.

A command is run as a session: step after step, some of which write and some of which may fail. An error ends the
session, but does not take back what has been written until then.
-/

namespace PathContainment

/-- Why a request was not answered. -/
inductive CommandError where
  | misuse (error : UsageError)
  | badPath (text : String) (fault : ParseError)
  | noPatterns
  | load (error : LoadError)
  deriving DecidableEq, Repr

namespace CommandError

def message : CommandError → String
  | misuse error => error.message
  | badPath text fault => "Invalid JSONPath expression: " ++ text ++ ": " ++ fault.message
  | noPatterns => "No pattern file given (use --patterns or set patterns_file in the config)"
  | load error => error.message

/-- The line that tells the user of the error. -/
def line : CommandError → String
  | misuse error => "error: " ++ error.message ++ "\n"
  | error => "Error: " ++ error.message ++ "\n"

end CommandError

/-- A part of the run of a command, which adds to what has been written so far, and may fail. -/
abbrev Session := ExceptT CommandError (StateM String)

namespace Session

/-- How the session ends after the given text has been written, and all that has been written then. -/
def result (session : Session α) (written : String) : Except CommandError α × String :=
  Id.run (StateT.run (ExceptT.run session) written)

def writeLine (line : String) : Session Unit := modify (· ++ line ++ "\n")

def writeLines (report : Report) : Session Unit := report.lines.forM writeLine

def writeReport (format : OutputFormat) (report : Report) : Session Unit :=
  match format with
  | .text => writeLines report
  | .json => writeLine report.toJson.pretty

/-- Writes reports one after the other, or all of them as one JSON value. -/
def writeReports (format : OutputFormat) (reports : List Report) : Session Unit :=
  match format with
  | .text => reports.forM writeLines
  | .json => writeLine (Json.array (reports.map Report.toJson)).pretty

end Session

namespace Command

/-- Where the patterns of a query come from: from the file that the command names, or else from that of the
settings. -/
def source? (settings : Settings) : Command → Option Source
  | query patternsFile _ _ => (patternsFile.or settings.patternsFile).map Source.ofName
  | _ => none

def readPath (text : String) : Except CommandError AnyPath :=
  (Path.read .any text).mapError (.badPath text)

def readPaths (texts : List String) : Except CommandError (List AnyPath) := texts.mapM readPath

/-- The set of patterns from a source, given what reading the source gives. -/
def patterns (source? : Option Source) (found : Except ReadFault ByteArray) (normalize : Bool) :
    Except CommandError (PatternSet AnyPath) :=
  match source? with
  | none => .error .noPatterns
  | some source => do
    return PatternSet.ofPatterns normalize (← (PatternFile.load source found).mapError .load)

def report (set : PatternSet AnyPath) (path : AnyPath) : Report :=
  .query path (set.contains path) (set.containing path)

/-- The run of a command, which tells whether all the paths that were asked about are contained in a pattern. What
reading the source of the patterns gives is needed for a query only. -/
def session (settings : Settings) (found : Except ReadFault ByteArray) (format : OutputFormat) (command : Command) :
    Session Bool :=
  match command with
  | containment pattern path => do
    let pattern ← readPath pattern
    let path ← readPath path
    let report := Report.containment (pattern.contains path)
    Session.writeReport format report
    return report.counts settings.unknownIsMatch
  | query _ asWritten paths => do
    let set ← patterns (command.source? settings) found (!asWritten && settings.normalizePatterns)
    let reports := (← readPaths paths).map (report set)
    Session.writeReports format reports
    return reports.all (·.counts settings.unknownIsMatch)
  | normalize paths => do
    let reports := (← readPaths paths).map fun path => Report.normalForm path.normalForm
    Session.writeReports format reports
    return true
  | check paths => do
    let reports := (← readPaths paths).map Report.kinds
    Session.writeReports format reports
    return true

end Command

/-- What running the program leads to. -/
structure Outcome where
  status : Nat
  output : String
  error : Option CommandError

namespace Outcome

def ofError (error : CommandError) (output : String) : Outcome := { status := 2, output, error := some error }

def ofText (text : String) : Outcome := { status := 0, output := text, error := none }

/-- The outcome of a session, before which nothing has been written. -/
def ofSession (session : Session Bool) : Outcome :=
  match session.result "" with
  | (.error error, output) => .ofError error output
  | (.ok matched, output) => { status := if matched then 0 else 1, output, error := none }

end Outcome

/-- The format of the output: that of the command, or else that of the settings. -/
def Invocation.outputFormat (settings : Settings) (invocation : Invocation) : OutputFormat :=
  invocation.format.getD (if settings.jsonOutput then .json else .text)

/-- The outcome of a command. -/
def Invocation.outcome (settings : Settings) (found : Except ReadFault ByteArray) (invocation : Invocation) : Outcome :=
  .ofSession (invocation.command.session settings found (invocation.outputFormat settings))

namespace Request

def versionText : String := "pathquill 0.1.0\n"

/-- The first line of the help on the program or a command. -/
def usage : Option CommandName → String
  | none => "Usage: pathquill [OPTIONS] <COMMAND>\n"
  | some name =>
    let (operands, repeats) := name.operands
    "Usage: pathquill " ++ name.word ++ " [OPTIONS] " ++ " ".intercalate (operands.map fun o => "<" ++ o ++ ">") ++
      (if repeats then "...\n" else "\n")

/-- The source that has to be read for a request. -/
def source? (settings : Settings) : Request → Option Source
  | run invocation => invocation.command.source? settings
  | _ => none

/-- The outcome of a request, given what reading its source gives. -/
def outcome (settings : Settings) (found : Except ReadFault ByteArray) : Request → Outcome
  | run invocation => invocation.outcome settings found
  | help command => .ofText (usage command)
  | version => .ofText versionText
  | misuse error => .ofError (.misuse error) ""

end Request

end PathContainment
