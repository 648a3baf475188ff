import PathContainment.Json.Basic
import PathContainment.Path.Basic

/-!
# Paths and verdicts as JSON values

A path is kept as the JSON string of its canonical text, and a verdict as the string of its word. Reading a value
back checks it like any other text; values that are no strings are refused with a description of what was found.
-/

namespace PathContainment

/-- Why a JSON value does not stand for what is expected. -/
inductive DecodeError where
  /-- A value of another type than the expected one. -/
  | wrongType (found : Json) (expected : String)
  /-- An object that does not have exactly one member. -/
  | notSingle
  | unknownWord (word : String)
  | badPath (fault : ParseError)

/-- The type of a value, and the value itself if it has no parts. -/
def Json.describe : Json → String
  | null => "null"
  | bool b => s!"boolean `{truthWord b}`"
  | integer n => s!"integer `{n}`"
  | fraction digits => s!"floating point `{digits}`"
  | string s => "string " ++ displayText s
  | array _ => "sequence"
  | object _ => "map"

def DecodeError.message : DecodeError → String
  | wrongType found expected => "invalid type: " ++ found.describe ++ ", expected " ++ expected
  | notSingle => "invalid value: map, expected map with a single key"
  | unknownWord word =>
    s!"unknown variant `{word}`, expected one of " ++ ", ".intercalate (Verdict.words.map fun w => s!"`{w}`")
  | badPath fault => fault.message

/-- The path as a JSON value. -/
def Path.toJson (p : Path scope) : Json := .string p.text

def Path.ofJson (scope : Scope) : Json → Except DecodeError (Path scope)
  | .string text => (Path.read scope text).mapError .badPath
  | value => .error (.wrongType value "a string")

/-- The verdict as a JSON value. -/
def Verdict.toJson (v : Verdict) : Json := .string v.word

def Verdict.ofJsonWord (word : String) : Except DecodeError Verdict :=
  match ofWord? word with
  | some v => .ok v
  | none => .error (.unknownWord word)

/-- The verdict that a JSON value stands for. The word may also be the only member of an object, without a value. -/
def Verdict.ofJson : Json → Except DecodeError Verdict
  | .string word => ofJsonWord word
  | .object [(word, value)] => do
    let v ← ofJsonWord word
    match value with
    | .null => return v
    | value => .error (.wrongType value "unit")
  | .object _ => .error .notSingle
  | value => .error (.wrongType value "string or map")

end PathContainment
