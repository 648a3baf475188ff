import PathContainment.Gzip.Container
import PathContainment.Pattern.Set

/-!
# Pattern files

A pattern file holds one path in each line. White space around a line does not count, and lines that are blank or
begin with `#` are passed over. The name of a file tells whether it is compressed; what arrives on the standard
input tells it by its first bytes.
-/

namespace PathContainment

/-- A line of a pattern file that is no path. -/
structure LineFault where
  /-- The number of the line, counted from `1`. -/
  number : Nat
  text : String
  fault : ParseError
  deriving DecidableEq, Repr

def LineFault.message (f : LineFault) : String :=
  s!"Invalid pattern on line {f.number}: " ++ f.text ++ ": " ++ f.fault.message

namespace PatternFile

/-- The lines of a text, without the white space around them. -/
def lines (content : String) : List (List Char) := (content.toList.splitOn '\n').map trim

/-- The line holds no pattern. -/
def isSkipped (line : List Char) : Bool := line.isEmpty || line.head? = some '#'

/-- The patterns of the lines from the one with the given number on. -/
def readFrom (number : Nat) : List (List Char) → Except LineFault (List AnyPath)
  | [] => .ok []
  | line :: rest =>
    if isSkipped line then readFrom (number + 1) rest
    else
      let text := String.ofList line
      match Path.read .any text with
      | .error fault => .error { number, text, fault }
      | .ok pattern => return pattern :: (← readFrom (number + 1) rest)

/-- The patterns of a file in their order. -/
def read (content : String) : Except LineFault (List AnyPath) := readFrom 1 (lines content)

end PatternFile

namespace PatternSet

/-- The set of the patterns, or of their normal forms. Of equal patterns the first one is kept. -/
def ofPatterns (normalize : Bool) (patterns : List AnyPath) : PatternSet AnyPath :=
  ofList (if normalize then patterns.map Path.normalForm else patterns)

end PatternSet

/-! ### Where patterns come from -/

/-- Where patterns are read from. -/
inductive Source where
  | input
  | file (name : String)
  deriving DecidableEq, Repr

/-- The source in words. -/
def Source.describe : Source → String
  | input => "stdin"
  | file name => name

/-- The source a name stands for: `-` is the standard input. -/
def Source.ofName (name : String) : Source := if name = "-" then input else file name

/-- Why there are no bytes from a source. -/
inductive ReadFault where
  /-- The source cannot be opened. -/
  | unopened (cause : String)
  /-- The source can be opened but not read, such as a directory. -/
  | unread (cause : String)
  deriving DecidableEq, Repr

/-- Why no patterns could be loaded. All but the last have their cause outside of the patterns themselves. -/
inductive LoadError where
  | unreadable (source : Source) (cause : String)
  /-- The bytes of the source are no text. -/
  | notText (source : Source) (cause : String)
  /-- The compressed file cannot be opened. -/
  | unopened (name : String) (cause : String)
  /-- The compressed source cannot be read, or cannot be decompressed to a text. -/
  | damaged (source : Source) (cause : String)
  | malformed (source : Source) (fault : LineFault)
  deriving DecidableEq, Repr

namespace LoadError

/-- What went wrong, without the cause. -/
def context : LoadError → String
  | unreadable .input _ => "Failed to read from stdin"
  | notText .input _ => "Invalid UTF-8 in stdin"
  | unreadable (.file name) _ | notText (.file name) _ => "Failed to read " ++ name
  | unopened name _ => "Failed to open gzipped file " ++ name
  | damaged .input _ => "Failed to decompress gzipped stdin"
  | damaged (.file _) _ => "Failed to decompress gzipped file - file may be corrupted"
  | malformed source _ => "Failed to load patterns from " ++ source.describe

def cause : LoadError → String
  | unreadable _ cause | notText _ cause | unopened _ cause | damaged _ cause => cause
  | malformed _ fault => fault.message

/-- The cause is put into words by the system, or by what decodes bytes. -/
def isForeign : LoadError → Bool
  | malformed _ _ => false
  | _ => true

def message (e : LoadError) : String := e.context ++ ": " ++ e.cause

end LoadError

namespace PatternFile

/-- The last part of the name of a file, which may have directories in front of it. -/
def baseName (name : String) : List Char :=
  ((name.toList.splitOn '/').filter fun part => part ≠ [] && part ≠ ['.']).getLastD []

/-- The name ends in `.gz`, with something before that. -/
def isCompressedName (name : String) : Bool :=
  let base := baseName name
  3 < base.length && ".gz".toList.isSuffixOf base

def invalidText : String := "stream did not contain valid UTF-8"

def invalidData : String := "corrupt gzip stream"

/-- The text that compressed bytes hold. -/
def decompressed (source : Source) (bytes : ByteArray) : Except LoadError String :=
  match Gzip.decompress bytes.data.toList with
  | none => .error (.damaged source invalidData)
  | some out =>
    match String.fromUTF8? ⟨out.toArray⟩ with
    | none => .error (.damaged source invalidText)
    | some text => .ok text

/-- The failure to load from a source that gives no bytes. Only a compressed file is opened before it is read, and what
hinders reading it then counts as damage to it. -/
def failure (source : Source) (fault : ReadFault) : LoadError :=
  match source, fault with
  | .file name, .unopened cause =>
    if isCompressedName name then .unopened name cause else .unreadable source cause
  | .file name, .unread cause =>
    if isCompressedName name then .damaged source cause else .unreadable source cause
  | .input, .unopened cause | .input, .unread cause => .unreadable source cause

/-- The text that a source holds, given what reading it gives. -/
def content (source : Source) (found : Except ReadFault ByteArray) : Except LoadError String :=
  match found with
  | .error fault => .error (failure source fault)
  | .ok bytes =>
    let isCompressed := match source with
      | .file name => isCompressedName name
      | .input => Gzip.magic.isPrefixOf bytes.data.toList
    if isCompressed then decompressed source bytes
    else
      match String.fromUTF8? bytes with
      | none => .error (.notText source invalidText)
      | some text => .ok text

/-- The patterns that a source holds. -/
def load (source : Source) (found : Except ReadFault ByteArray) : Except LoadError (List AnyPath) := do
  (read (← content source found)).mapError (.malformed source)

end PatternFile

end PathContainment
