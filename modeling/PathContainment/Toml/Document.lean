import PathContainment.Toml.Quoted
import PathContainment.Toml.Scalar

/-!
# TOML documents

A document is a list of lines: headers, which open a table, and keys with values, which go into the table that was
opened last. Values may extend over several lines. `document?` reads a whole document, or nothing if there is
anything wrong with it: a fault of form, a key that is given twice, or a table that is opened twice.
-/

namespace PathContainment.Toml

/-! ### Comments and ends of lines -/

/-- The text after a comment, if there is one in front. -/
def skipComment (l : List Char) : List Char :=
  match l with
  | '#' :: rest => rest.dropWhile isPlain
  | l => l

/-- The text after the end of a line, in front of which there may be a comment. -/
def endOfLine? (l : List Char) : Option (List Char) :=
  match skipComment (skipSpace l) with
  | [] => some []
  | '\n' :: rest => some rest
  | _ => none

/-- Skips blanks, comments and ends of lines between the items of an array. -/
def skipLines : (count : Nat) → List Char → List Char
  | 0, l => l
  | count + 1, l =>
    match skipComment (skipSpace l) with
    | '\n' :: rest => skipLines count rest
    | l => l

/-- Skips blanks, comments and ends of lines. -/
def skipGap (l : List Char) : List Char := skipLines l.length l

/-! ### Keys -/

def isKeyChar (c : Char) : Bool := c.isAlphanum || c = '_' || c = '-'

/-- Reads one part of a key. -/
def keyPart (l : List Char) : Option (String × List Char) :=
  match l with
  | '"' :: rest => (basic rest).map fun (s, rest) => (String.ofList s, rest)
  | '\'' :: rest => (literal rest).map fun (s, rest) => (String.ofList s, rest)
  | l =>
    let part := l.takeWhile isKeyChar
    if part = [] then none else some (String.ofList part, l.dropWhile isKeyChar)

/-- The greatest number of parts of a key, and of levels of values within values. -/
def maxDepth : Nat := 79

/-- Reads a key of at most `count` parts with dots between them, and the blanks around it. The parts but the last one
are returned apart from that. -/
def key : (count : Nat) → List Char → Option ((List String × String) × List Char)
  | 0, _ => none
  | count + 1, l => do
    let (part, l) ← keyPart (skipSpace l)
    match skipSpace l with
    | '.' :: l =>
      let ((path, last), l) ← key count l
      return ((part :: path, last), l)
    | l => return (([], part), l)

/-! ### Values -/

/-- Reads a number, a date or a time. A blank between a date and a time belongs to them. -/
def scalar (l : List Char) : Option (Value × List Char) :=
  let run := l.takeWhile isScalarChar
  let rest := l.dropWhile isScalarChar
  let (run, rest) :=
    match rest with
    | ' ' :: c :: more =>
      if afterDate run = some [] ∧ c.isDigit then
        (run ++ ' ' :: (c :: more).takeWhile isScalarChar, (c :: more).dropWhile isScalarChar)
      else (run, rest)
    | _ => (run, rest)
  (scalar? run).map (·, rest)

mutual
/-- Reads a value in which there are at most `depth` levels of values. Every character takes at most one of the
`steps`. -/
def value (steps depth : Nat) (l : List Char) : Option (Value × List Char) :=
  match steps with
  | 0 => none
  | steps + 1 =>
    match l with
    | '"' :: _ | '\'' :: _ => (quoted l).map fun (s, rest) => (.string s, rest)
    | '[' :: rest =>
      if depth = 0 then none
      else (items steps (depth - 1) (skipGap rest)).map fun (items, rest) => (.array items, rest)
    | '\x7b' :: rest =>
      if depth = 0 then none
      else (
        match skipSpace rest with
        | '\x7d' :: rest => some (.table .written [], rest)
        | rest => (members steps (depth - 1) [] rest).map fun (entries, rest) => (.table .written entries, rest))
    | 't' :: 'r' :: 'u' :: 'e' :: rest => some (.boolean true, rest)
    | 'f' :: 'a' :: 'l' :: 's' :: 'e' :: rest => some (.boolean false, rest)
    | l => scalar l
/-- Reads the items of an array up to its end. A comma may follow the last item. -/
def items (steps depth : Nat) (l : List Char) : Option (List Value × List Char) :=
  match steps with
  | 0 => none
  | steps + 1 =>
    match l with
    | ']' :: rest => some ([], rest)
    | l =>
      match value steps depth l with
      | none => none
      | some (item, rest) =>
        match skipGap rest with
        | ',' :: rest => (items steps depth (skipGap rest)).map fun (more, rest) => (item :: more, rest)
        | ']' :: rest => some ([item], rest)
        | _ => none
/-- Reads the members of a table between braces up to its end. -/
def members (steps depth : Nat) (entries : Entries) (l : List Char) : Option (Entries × List Char) :=
  match steps with
  | 0 => none
  | steps + 1 =>
    match key maxDepth l with
    | some ((path, last), '=' :: rest) =>
      match value steps depth (skipSpace rest) with
      | none => none
      | some (v, rest) =>
        match entries.addUnder path last v with
        | none => none
        | some entries =>
          match skipSpace rest with
          | ',' :: rest => members steps depth entries rest
          | '\x7d' :: rest => some (entries, rest)
          | _ => none
    | _ => none
end

/-! ### Lines -/

/-- What was read so far, and the header of the table that is open. -/
structure Progress where
  entries : Entries
  header : List String

/-- Reads a header up to its end, after the brackets that open it. -/
def header (l : List Char) : Option ((List String × String) × List Char) := key maxDepth l

/-- Reads one line that is not empty. -/
def statement (progress : Progress) (l : List Char) : Option (Progress × List Char) :=
  match l with
  | '[' :: '[' :: rest => do
    let ((path, last), rest) ← header rest
    match rest with
    | ']' :: ']' :: rest =>
      let entries ← progress.entries.changeAt (Entries.openNext last) path
      return ({ entries, header := path ++ [last] }, ← endOfLine? rest)
    | _ => none
  | '[' :: rest => do
    let ((path, last), rest) ← header rest
    match rest with
    | ']' :: rest =>
      let entries ← progress.entries.changeAt (Entries.openHeader last) path
      return ({ entries, header := path ++ [last] }, ← endOfLine? rest)
    | _ => none
  | l => do
    let ((path, last), rest) ← key maxDepth l
    match rest with
    | '=' :: rest =>
      let (v, rest) ← value (l.length + 1) maxDepth (skipSpace rest)
      let entries ← progress.entries.changeAt (Entries.addUnder path last v) progress.header
      return ({ progress with entries }, ← endOfLine? rest)
    | _ => none

/-- Reads lines to the end of the document. Every line has at least one character, so that `count` need not be more
than the number of characters. -/
def statements : (count : Nat) → Progress → List Char → Option Entries
  | 0, progress, l => if l.isEmpty then some progress.entries else none
  | count + 1, progress, l =>
    match skipGap l with
    | [] => some progress.entries
    | l =>
      match statement progress l with
      | none => none
      | some (progress, rest) => statements count progress rest

/-- The text with every line break as one character. -/
def joinBreaks : List Char → List Char
  | '\r' :: '\n' :: rest => '\n' :: joinBreaks rest
  | c :: rest => c :: joinBreaks rest
  | [] => []

/-- The text without the mark of the byte order that may stand in front of it. -/
def withoutMark : List Char → List Char
  | '\ufeff' :: rest => rest
  | l => l

/-- The entries of a document. -/
def document? (text : String) : Option Entries :=
  let l := joinBreaks (withoutMark text.toList)
  statements l.length { entries := [], header := [] } l

end PathContainment.Toml
