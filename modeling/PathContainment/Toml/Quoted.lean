/-!
# Strings of a TOML document

A string stands between double quotation marks, where a backslash begins an escape, or between single ones, where
everything stands for itself; either mark may be tripled for a string of several lines. Line breaks are single
characters here.

A string is written between double marks unless something in it would need an escape and another form does without.
-/

namespace PathContainment.Toml

/-- The character may stand in a string of one line. -/
def isPlain (c : Char) : Bool := c = '\t' || (0x20 ≤ c.toNat && c.toNat ≠ 0x7F)

def isSpace (c : Char) : Bool := c = ' ' || c = '\t'

def skipSpace (l : List Char) : List Char := l.dropWhile isSpace

/-! ### Reading -/

/-- What a character after a backslash stands for. -/
def unescape : Char → Option Char
  | 'b' => some '\x08'
  | 't' => some '\t'
  | 'n' => some '\n'
  | 'f' => some '\x0c'
  | 'r' => some '\r'
  | '"' => some '"'
  | '\\' => some '\\'
  | _ => none

def hexValue? (c : Char) : Option Nat :=
  if c.isDigit then some (c.toNat - '0'.toNat)
  else if 'a' ≤ c ∧ c ≤ 'f' then some (c.toNat - 'a'.toNat + 10)
  else if 'A' ≤ c ∧ c ≤ 'F' then some (c.toNat - 'A'.toNat + 10)
  else none

/-- The character whose number hexadecimal digits give. -/
def codePoint? (digits : List Char) : Option Char := do
  let n := (← digits.mapM hexValue?).foldl (fun n d => 16 * n + d) 0
  if n.isValidChar then some (Char.ofNat n) else none

/-- Puts a character in front of what is read after it. -/
def consChar (c : Char) : Option (List Char × List Char) → Option (List Char × List Char) :=
  Option.map fun (s, rest) => (c :: s, rest)

/-- Reads a string after the double mark. -/
def basic : List Char → Option (List Char × List Char)
  | [] => none
  | '"' :: rest => some ([], rest)
  | '\\' :: 'u' :: a :: b :: c :: d :: rest => do consChar (← codePoint? [a, b, c, d]) (basic rest)
  | '\\' :: 'U' :: a :: b :: c :: d :: e :: f :: g :: h :: rest => do
    consChar (← codePoint? [a, b, c, d, e, f, g, h]) (basic rest)
  | '\\' :: c :: rest => do consChar (← unescape c) (basic rest)
  | c :: rest => if isPlain c then consChar c (basic rest) else none

/-- Up to two marks in front of the three that close a string of several lines belong to the string. -/
def closing (mark : Char) : List Char → List Char × List Char
  | a :: b :: rest =>
    if a = mark ∧ b = mark then ([mark, mark], rest)
    else if a = mark then ([mark], b :: rest) else ([], a :: b :: rest)
  | a :: rest => if a = mark then ([mark], rest) else ([], a :: rest)
  | [] => ([], [])

/-- A backslash in front of the text joins the line to the next one. -/
def joinsLines (l : List Char) : Bool := (skipSpace l).head? = some '\n'

/-- Reads a string of several lines after the three double marks. After a joined line, white space is passed over. -/
def basicLines (passing : Bool) : List Char → Option (List Char × List Char)
  | [] => none
  | '"' :: '"' :: '"' :: rest => some (closing '"' rest)
  | '\\' :: 'u' :: a :: b :: c :: d :: rest => do consChar (← codePoint? [a, b, c, d]) (basicLines false rest)
  | '\\' :: 'U' :: a :: b :: c :: d :: e :: f :: g :: h :: rest => do
    consChar (← codePoint? [a, b, c, d, e, f, g, h]) (basicLines false rest)
  | '\\' :: c :: rest =>
    if joinsLines (c :: rest) then basicLines true rest
    else do consChar (← unescape c) (basicLines false rest)
  | c :: rest =>
    if passing && (isSpace c || c = '\n') then basicLines true rest
    else if isPlain c || c = '\n' then consChar c (basicLines false rest) else none

/-- Reads a string after the single mark. -/
def literal (l : List Char) : Option (List Char × List Char) :=
  match l.dropWhile fun c => isPlain c && c ≠ '\'' with
  | '\'' :: rest => some (l.takeWhile fun c => isPlain c && c ≠ '\'', rest)
  | _ => none

/-- Reads a string of several lines after the three single marks. -/
def literalLines : List Char → Option (List Char × List Char)
  | [] => none
  | '\'' :: '\'' :: '\'' :: rest => some (closing '\'' rest)
  | c :: rest => if isPlain c || c = '\n' then consChar c (literalLines rest) else none

/-- The text after the line break with which a string of several lines may begin. -/
def afterBreak : List Char → List Char
  | '\n' :: rest => rest
  | l => l

/-- Reads a string. -/
def quoted (l : List Char) : Option (String × List Char) :=
  Option.map (fun (s, rest) => (String.ofList s, rest)) <|
    match l with
    | '"' :: '"' :: '"' :: rest => basicLines false (afterBreak rest)
    | '"' :: rest => basic rest
    | '\'' :: '\'' :: '\'' :: rest => literalLines (afterBreak rest)
    | '\'' :: rest => literal rest
    | _ => none

/-! ### Writing -/

/-- The length of the longest run of a character. -/
def longestRun (c : Char) (l : List Char) : Nat :=
  (l.foldl (fun (longest, current) d =>
    let current := if d = c then current + 1 else 0
    (max longest current, current)) (0, 0)).1

/-- The character can only be written with an escape. -/
def needsEscape (c : Char) : Bool := !isPlain c && c ≠ '\n'

def hexFour (n : Nat) : List Char :=
  [n / 4096 % 16, n / 256 % 16, n / 16 % 16, n % 16].map fun d => (Nat.digitChar d).toUpper

/-- A character between double marks. In a string of several lines, line breaks stand for themselves. -/
def escape (lines : Bool) (c : Char) : List Char :=
  match c with
  | '\x08' => ['\\', 'b']
  | '\t' => ['\\', 't']
  | '\n' => if lines then ['\n'] else ['\\', 'n']
  | '\x0c' => ['\\', 'f']
  | '\r' => ['\\', 'r']
  | '\\' => ['\\', '\\']
  | c => if isPlain c then [c] else ['\\', 'u'] ++ hexFour c.toNat

/-- The characters between double marks. After `run` double marks in a row, one more is written with an escape if
there are as many as may stand together. -/
def escapeAll (lines : Bool) (run : Nat) : List Char → List Char
  | [] => []
  | '"' :: rest =>
    if run < (if lines then 2 else 0) then '"' :: escapeAll lines (run + 1) rest
    else '\\' :: '"' :: escapeAll lines 0 rest
  | c :: rest => escape lines c ++ escapeAll lines 0 rest

/-- The text between marks of three characters, on a line of its own if it has line breaks. -/
def between (mark : Char) (hasBreak : Bool) (text : List Char) : List Char :=
  let marks := List.replicate 3 mark
  marks ++ (if hasBreak then ['\n'] else []) ++ text ++ marks

/-- The written form of a string: the first of five that needs no escape, or else one with escapes. -/
def write (s : String) : String :=
  let l := s.toList
  let hasBreak := '\n' ∈ l
  let hasControl := l.any needsEscape
  let hasBackslash := '\\' ∈ l
  let doubles := longestRun '"' l
  let singles := longestRun '\'' l
  let oneLine := '"' :: escapeAll false 0 l ++ ['"']
  let manyLines := between '"' hasBreak (escapeAll true 0 l)
  String.ofList <|
    if !hasControl && !hasBackslash && doubles = 0 && !hasBreak then oneLine
    else if !hasControl && singles = 0 && !hasBreak then '\'' :: l ++ ['\'']
    else if !hasControl && !hasBackslash && doubles ≤ 2 then manyLines
    else if !hasControl && singles ≤ 2 then between '\'' hasBreak l
    else if hasBreak then manyLines
    else oneLine

end PathContainment.Toml
