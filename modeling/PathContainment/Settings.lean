import PathContainment.Text.Truth
import PathContainment.Toml.Document

/-!
# Settings

What the command line does where its arguments leave it open. The settings are kept in a TOML document in the
user's directory, in which every entry may be missing. A document that is malformed, or has an entry of the wrong
type, counts as a whole as if it were not there.
-/

namespace PathContainment

structure Settings where
  /-- The pattern file of a query that names none. -/
  patternsFile : Option String := none
  /-- Patterns are put into normal form before they go into a set. -/
  normalizePatterns : Bool := true
  /-- An unknown verdict counts as a match in the exit status. -/
  unknownIsMatch : Bool := false
  /-- Which messages about the work itself are wanted. -/
  logLevel : String := "warn"
  outputFormat : String := "text"
  deriving DecidableEq, Repr

namespace Settings

/-- The name of the file in the user's directory. -/
def fileName : String := ".config/pathquill/config.toml"

/-- The output is to be in the JSON format. Case does not matter. -/
def jsonOutput (s : Settings) : Bool := s.outputFormat.toList.map Char.toLower = "json".toList

/-! ### Reading -/

/-- The string under a key. The whole is absent if there is something else under it. -/
def stringAt (entries : Toml.Entries) (key : String) : Option (Option String) :=
  match entries.get? key with
  | none => some none
  | some (.string s) => some (some s)
  | some _ => none

/-- The truth value under a key. The whole is absent if there is something else under it. -/
def flagAt (entries : Toml.Entries) (key : String) : Option (Option Bool) :=
  match entries.get? key with
  | none => some none
  | some (.boolean b) => some (some b)
  | some _ => none

/-- The settings that the entries of a document stand for. -/
def ofEntries? (entries : Toml.Entries) : Option Settings := do
  let unset : Settings := {}
  return {
    patternsFile := ← stringAt entries "patterns_file"
    normalizePatterns := (← flagAt entries "normalize_patterns").getD unset.normalizePatterns
    unknownIsMatch := (← flagAt entries "unknown_is_match").getD unset.unknownIsMatch
    logLevel := (← stringAt entries "log_level").getD unset.logLevel
    outputFormat := (← stringAt entries "output_format").getD unset.outputFormat }

/-- The settings that a document stands for. -/
def ofText (text : String) : Settings := ((Toml.document? text).bind ofEntries?).getD {}

/-- The settings that the bytes of a file stand for, which is absent if it cannot be read. -/
def ofBytes (found : Option ByteArray) : Settings := ((found.bind String.fromUTF8?).map ofText).getD {}

/-! ### Writing -/

def line (key value : String) : String := key ++ " = " ++ value ++ "\n"

/-- The document that stands for the settings. -/
def text (s : Settings) : String :=
  (match s.patternsFile with | some name => line "patterns_file" (Toml.write name) | none => "") ++
    line "normalize_patterns" (truthWord s.normalizePatterns) ++
    line "unknown_is_match" (truthWord s.unknownIsMatch) ++
    line "log_level" (Toml.write s.logLevel) ++
    line "output_format" (Toml.write s.outputFormat)

end Settings

end PathContainment
