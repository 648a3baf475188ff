import PathContainment.CommandLine.Arguments
import PathContainment.Json.Decode
import PathContainment.Path.Basic

/-!
# Reports

What a command finds out about a path, and how it is written: as lines of text, or as a JSON value.
-/

namespace PathContainment

/-- What a command finds out about a path. -/
inductive Report where
  /-- Whether the pattern of the command contains the path. -/
  | containment (verdict : Verdict)
  /-- Whether a pattern of a set contains the path, and which patterns do. -/
  | query (path : AnyPath) (verdict : Verdict) (containing : List AnyPath)
  /-- The normal form of the path. -/
  | normalForm (path : AnyPath)
  /-- The path, which tells of which kinds it is. -/
  | kinds (path : AnyPath)

namespace Report

/-- The answer to the question whether the path is contained in a pattern, if that was the question. -/
def verdict? : Report → Option Verdict
  | containment verdict | query _ verdict _ => some verdict
  | normalForm _ | kinds _ => none

/-- The path is contained in a pattern, if that was the question. -/
def counts (unknownCounts : Bool) (report : Report) : Bool := report.verdict?.all (·.counts unknownCounts)

def lines : Report → List String
  | containment verdict => [verdict.word]
  | query path verdict containing => (path.text ++ "\t" ++ verdict.word) :: containing.map ("  " ++ ·.text)
  | normalForm path => [path.text]
  | kinds path =>
    [path.text ++ "\tabsolute=" ++ truthWord path.isAbsolute ++ " strict=" ++ truthWord path.isStrict ++
      " normalized=" ++ truthWord path.isNormal]

def toJson : Report → Json
  | containment verdict => verdict.toJson
  | query path verdict containing =>
    .object [("path", path.toJson), ("result", verdict.toJson), ("matched", .array (containing.map Path.toJson))]
  | normalForm path => path.toJson
  | kinds path =>
    .object [("path", path.toJson), ("absolute", .bool path.isAbsolute), ("strict", .bool path.isStrict),
      ("normalized", .bool path.isNormal)]

end Report

end PathContainment
