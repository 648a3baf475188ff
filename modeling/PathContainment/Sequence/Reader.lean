import PathContainment.Element.Basic
import PathContainment.Except
import PathContainment.Text.Blank
import PathContainment.Text.Decimal

/-!
# Reading a sequence of elements

A text is read from left to right as an optional head followed by segments. The head is `$` or a name, and it is
missing when the text begins with a dot or a bracket. A segment is a name after one or two dots, or a bracket, which
may stand after one or two dots as well; two dots mean recursive descent. White space is skipped inside brackets
only.

Each reader takes the rest of the text and returns what it read with what remains. `size` is the length of the whole
text, from which the position of a fault is found.
-/

namespace PathContainment

/-- What a reader needs to find next. -/
inductive Expectation where
  | path
  | segment
  | descentTarget
  | name
  | bracketContent
  | character (c : Char)
  | quotedName
  | closingQuote
  | filterOpening
  | closingParenthesis
  deriving DecidableEq, Repr

def Expectation.describe : Expectation → String
  | path => "JSONPath expression"
  | segment => "'.' or '['"
  | descentTarget => "expression element after recursive descent"
  | name => "property name"
  | bracketContent => "bracket content"
  | character c => s!"'{c}'"
  | quotedName => "quoted property name"
  | closingQuote => "closing quote '''"
  | filterOpening => "'(' after '?'"
  | closingParenthesis => "closing ')'"

/-- What is wrong with a text, or with the path it describes. -/
inductive ParseError where
  | unexpected (position : Nat) (found : Char) (expected : Expectation)
  | unexpectedEnd (expected : Expectation)
  | endsWithDot
  | emptyBrackets
  | tooManyParts (count : Nat)
  | emptyEntry
  | invalidNumber (text : String)
  /-- The text describes an element or a path that is not admissible. -/
  | invalid (fault : PathError)
  deriving DecidableEq, Repr

/-- The description of a fault of syntax that is no matter of a single character. -/
def ParseError.malformed (what : String) : String := "invalid JSONPath syntax: " ++ what

def ParseError.message : ParseError → String
  | unexpected position found expected =>
    s!"unexpected token '{found}' at position {position}, expected " ++ expected.describe
  | unexpectedEnd expected => "unexpected end of input, expected " ++ expected.describe
  | endsWithDot => malformed "expression ends with dot"
  | emptyBrackets => malformed "no content inside square brackets"
  | tooManyParts count => malformed s!"array slice has too many parts: {count}"
  | emptyEntry => malformed "empty entry inside array index list"
  | invalidNumber text => malformed ("invalid number: " ++ text)
  | invalid fault => fault.message

namespace Sequence

/-- The fault of finding the rest of the text where something else is expected. -/
def unexpected (size : Nat) (rest : List Char) (expected : Expectation) : ParseError :=
  match rest with
  | [] => .unexpectedEnd expected
  | c :: _ => .unexpected (size - rest.length) c expected

/-- An element built from what was read; its fault is a fault of the text. -/
def admitted (e : Except PathError α) : Except ParseError α := e.mapError .invalid

theorem admitted_eq_ok_iff {x : Except PathError α} {a : α} : admitted x = .ok a ↔ x = .ok a := by
  constructor
  · intro h
    cases x with
    | error fault => cases h
    | ok b => cases h; rfl
  · rintro rfl
    rfl

/-- Reads the character after white space. -/
def expect (size : Nat) (c : Char) (s : List Char) : Except ParseError (List Char) :=
  match skipBlank s with
  | d :: rest => if d = c then .ok rest else .error (unexpected size (d :: rest) (.character c))
  | [] => .error (.unexpectedEnd (.character c))

/-! ### Names -/

/-- The character may stand in a name without quotes. -/
def isNameChar (c : Char) : Bool := c ≠ '.' && c ≠ '[' && c ≠ ']'

/-- The element a name without quotes denotes. -/
def ofName (name : List Char) : Except PathError Element :=
  if name = ['*'] then .ok .anyProperty else Element.mkProperty (String.ofList name)

/-- Reads a name up to the next dot or bracket. -/
def name (size : Nat) (s : List Char) : Except ParseError (Element × List Char) :=
  match s.dropWhile isNameChar with
  | ']' :: rest => .error (unexpected size (']' :: rest) .name)
  | rest => do return (← admitted (ofName (s.takeWhile isNameChar)), rest)

private theorem length_dropWhile_le (test : Char → Bool) (l : List Char) : (l.dropWhile test).length ≤ l.length :=
  (List.dropWhile_sublist _).length_le

set_option linter.unusedVariables false in
/-- Reads names in single quotes with commas between them. -/
def quotedNames (size : Nat) (s : List Char) : Except ParseError (List String × List Char) :=
  match hs : skipBlank s with
  | '\'' :: rest =>
    match hr : rest.dropWhile (· ≠ '\'') with
    | [] => .error (.unexpectedEnd .closingQuote)
    | _ :: rest' =>
      match hc : skipBlank rest' with
      | ',' :: rest'' => do
        let (names, final) ← quotedNames size rest''
        return (String.ofList (rest.takeWhile (· ≠ '\'')) :: names, final)
      | final => .ok ([String.ofList (rest.takeWhile (· ≠ '\''))], final)
  | rest => .error (unexpected size rest .quotedName)
termination_by s.length
decreasing_by
  have h₁ := length_skipBlank_le s
  have h₂ := length_dropWhile_le (· ≠ '\'') rest
  have h₃ := length_skipBlank_le rest'
  rw [hs] at h₁; rw [hr] at h₂; rw [hc] at h₃
  simp only [List.length_cons] at h₁ h₂ h₃
  omega

/-- The element a list of quoted names denotes. -/
def ofNames : List String → Except PathError Element
  | [name] => Element.mkProperty name
  | names => Element.mkProperties names

/-! ### Parentheses -/

/-- How deep the reader is inside parentheses: how many are open besides the first one, and the quotation mark that
is open, if one is. -/
structure Nesting where
  depth : Nat
  quote : Option Char
  deriving DecidableEq, Repr

/-- After the first opening parenthesis. -/
def Nesting.start : Nesting := { depth := 0, quote := none }

/-- The nesting after one more character, absent after the parenthesis that closes the first one. Parentheses between
quotation marks do not count. -/
def Nesting.step (nesting : Nesting) (c : Char) : Option Nesting :=
  match nesting with
  | { depth, quote := some q } => some { depth, quote := if c = q then none else some q }
  | { depth, quote := none } =>
    if c = '\'' ∨ c = '"' then some { depth, quote := some c }
    else if c = '(' then some { depth := depth + 1, quote := none }
    else if c = ')' then
      match depth with
      | 0 => none
      | depth + 1 => some { depth, quote := none }
    else some { depth, quote := none }

/-- The text up to the parenthesis that closes the first one, and the rest after that. -/
def parenthesized (nesting : Nesting) : List Char → Option (List Char × List Char)
  | [] => none
  | c :: rest =>
    match nesting.step c with
    | none => some ([], rest)
    | some nesting => (parenthesized nesting rest).map fun (text, final) => (c :: text, final)

/-- Reads what stands after an opening parenthesis, up to the closing one and the closing bracket. -/
def closed (size : Nat) (build : String → Except PathError Element) (s : List Char) :
    Except ParseError (Element × List Char) :=
  match parenthesized .start s with
  | none => .error (.unexpectedEnd .closingParenthesis)
  | some (text, rest) => do
    let rest ← expect size ']' rest
    return (← admitted (build (String.ofList text)), rest)

/-! ### Numbers -/

def number (entry : List Char) : Except ParseError Int64 :=
  match Decimal.word? entry with
  | some i => .ok i
  | none => .error (.invalidNumber (String.ofList entry))

/-- A number that may be left out. -/
def number? (entry : List Char) : Except ParseError (Option Int64) :=
  if entry = [] then .ok none else some <$> number entry

/-- The parts of a text between the separators, without white space around them. -/
def entries (separator : Char) (s : List Char) : List (List Char) := (s.splitOn separator).map trim

/-- The slice with the given parts; the step is `1` unless it is given. -/
def ofParts : List (List Char) → Except ParseError Element
  | [start, stop] => do
    let start ← number? start
    let stop ← number? stop
    admitted (Element.mkSlice start stop 1)
  | [start, stop, step] => do
    let start ← number? start
    let stop ← number? stop
    let step ← number? step
    admitted (Element.mkSlice start stop (step.getD 1))
  | parts => .error (.tooManyParts parts.length)

/-- The element that numbers between brackets denote: a slice if there is a colon, a list if there is a comma. -/
def ofNumbers (s : List Char) : Except ParseError Element :=
  if ':' ∈ s then ofParts (entries ':' s)
  else if ',' ∈ s then
    if [] ∈ entries ',' s then .error .emptyEntry
    else do admitted (Element.mkIndexes (← (entries ',' s).mapM number))
  else do admitted (Element.mkIndex (← number s))

/-! ### Brackets and segments -/

/-- Reads what stands after an opening bracket, up to the closing one. -/
def bracket (size : Nat) (s : List Char) : Except ParseError (Element × List Char) :=
  match skipBlank s with
  | [] => .error (.unexpectedEnd .bracketContent)
  | '*' :: rest => do return (.anyIndex, ← expect size ']' rest)
  | '\'' :: rest => do
    let (names, rest) ← quotedNames size ('\'' :: rest)
    let rest ← expect size ']' rest
    return (← admitted (ofNames names), rest)
  | '(' :: rest => closed size Element.mkExpression rest
  | '?' :: rest =>
    match skipBlank rest with
    | '(' :: rest => closed size Element.mkFilter rest
    | rest => .error (unexpected size rest .filterOpening)
  | ']' :: _ => .error .emptyBrackets
  | content =>
    match content.dropWhile (· ≠ ']') with
    | [] => .error (.unexpectedEnd (.character ']'))
    | _ :: rest => do return (← ofNumbers (trim (content.takeWhile (· ≠ ']'))), rest)

/-- Reads what stands after one dot, or after two. -/
def afterDots (size : Nat) (two : Bool) (s : List Char) : Except ParseError (Element × List Char) :=
  match s with
  | [] => .error (if two then .unexpectedEnd .descentTarget else .endsWithDot)
  | '.' :: _ => .error (unexpected size s .descentTarget)
  | '[' :: rest => bracket size rest
  | _ => name size s

/-- Reads one segment. -/
def segment (size : Nat) : List Char → Except ParseError (Element × List Char)
  | '[' :: rest => bracket size rest
  | '.' :: '.' :: rest => do
    let (e, rest) ← afterDots size true rest
    return (.descent e, rest)
  | '.' :: rest => afterDots size false rest
  | s => .error (unexpected size s .segment)

/-! ### No reader lengthens the rest of the text -/

private theorem length_expect_le {size : Nat} {c : Char} {s r : List Char} (h : expect size c s = .ok r) :
    r.length ≤ s.length := by
  have hs := length_skipBlank_le s
  unfold expect at h
  split at h
  · rename_i d rest heq
    split at h
    · cases h; rw [heq] at hs; simp at hs; omega
    · cases h
  · cases h

private theorem length_name_le {size : Nat} {s r : List Char} {e : Element} (h : name size s = .ok (e, r)) :
    r.length ≤ s.length := by
  have hs := length_dropWhile_le isNameChar s
  unfold name at h
  split at h
  · cases h
  · obtain ⟨e', -, h⟩ := bind_eq_ok_iff.1 h
    cases h; exact hs

private theorem length_quotedNames_le {size : Nat} {s r : List Char} {names : List String}
    (h : quotedNames size s = .ok (names, r)) : r.length ≤ s.length := by
  fun_induction quotedNames size s generalizing names r with
  | case1 => cases h
  | case2 s rest hs _ rest' hr rest'' hc ih =>
    obtain ⟨⟨names', final⟩, h', h⟩ := bind_eq_ok_iff.1 h
    cases h
    have := ih h'
    have h₁ := length_skipBlank_le s
    have h₂ := length_dropWhile_le (· ≠ '\'') rest
    have h₃ := length_skipBlank_le rest'
    rw [hs] at h₁; rw [hr] at h₂; rw [hc] at h₃
    simp only [List.length_cons] at h₁ h₂ h₃
    omega
  | case3 s rest hs _ rest' hr =>
    cases h
    have h₁ := length_skipBlank_le s
    have h₂ := length_dropWhile_le (· ≠ '\'') rest
    have h₃ := length_skipBlank_le rest'
    rw [hs] at h₁; rw [hr] at h₂
    simp only [List.length_cons] at h₁ h₂
    omega
  | case4 => cases h

private theorem length_parenthesized_le {nesting : Nesting} {s text r : List Char}
    (h : parenthesized nesting s = some (text, r)) : r.length ≤ s.length := by
  induction s generalizing nesting text with
  | nil => cases h
  | cons c s ih =>
    unfold parenthesized at h
    split at h
    · cases h; simp
    · obtain ⟨⟨text', r'⟩, h', heq⟩ := Option.map_eq_some_iff.1 h
      cases heq
      exact Nat.le_succ_of_le (ih h')

private theorem length_closed_le {size : Nat} {build : String → Except PathError Element} {s r : List Char}
    {e : Element} (h : closed size build s = .ok (e, r)) : r.length ≤ s.length := by
  unfold closed at h
  split at h
  · cases h
  · rename_i heq
    obtain ⟨r', h', h⟩ := bind_eq_ok_iff.1 h
    obtain ⟨e', -, h⟩ := bind_eq_ok_iff.1 h
    cases h
    exact Nat.le_trans (length_expect_le h') (length_parenthesized_le heq)

private theorem length_bracket_le {size : Nat} {s r : List Char} {e : Element}
    (h : bracket size s = .ok (e, r)) : r.length ≤ s.length := by
  have hs := length_skipBlank_le s
  unfold bracket at h
  split at h
  · cases h
  · rename_i heq
    obtain ⟨r', h', h⟩ := bind_eq_ok_iff.1 h
    cases h
    have := length_expect_le h'
    rw [heq] at hs; simp only [List.length_cons] at hs; omega
  · rename_i heq
    obtain ⟨⟨names, r₁⟩, h₁, h⟩ := bind_eq_ok_iff.1 h
    obtain ⟨r₂, h₂, h⟩ := bind_eq_ok_iff.1 h
    obtain ⟨e', -, h⟩ := bind_eq_ok_iff.1 h
    cases h
    have := length_quotedNames_le h₁
    have := length_expect_le h₂
    rw [heq] at hs; simp only [List.length_cons] at *; omega
  · rename_i heq
    have := length_closed_le h
    rw [heq] at hs; simp only [List.length_cons] at hs; omega
  · rename_i rest heq
    have hr := length_skipBlank_le rest
    split at h
    · rename_i heq'
      have := length_closed_le h
      rw [heq] at hs; rw [heq'] at hr; simp only [List.length_cons] at hs hr; omega
    · cases h
  · cases h
  · split at h
    · cases h
    · rename_i heq
      obtain ⟨e', -, h⟩ := bind_eq_ok_iff.1 h
      cases h
      have := length_dropWhile_le (· ≠ ']') (skipBlank s)
      rw [heq] at this; simp only [List.length_cons] at this; omega

private theorem length_afterDots_le {size : Nat} {two : Bool} {s r : List Char} {e : Element}
    (h : afterDots size two s = .ok (e, r)) : r.length ≤ s.length := by
  unfold afterDots at h
  split at h
  · cases h
  · cases h
  · have := length_bracket_le h
    simp only [List.length_cons]; omega
  · exact length_name_le h

/-- A segment has at least one character. -/
theorem length_segment_lt {size : Nat} {s r : List Char} {e : Element} (h : segment size s = .ok (e, r)) :
    r.length < s.length := by
  unfold segment at h
  split at h
  · have := length_bracket_le h
    simp only [List.length_cons]; omega
  · obtain ⟨⟨e', r'⟩, h', h⟩ := bind_eq_ok_iff.1 h
    cases h
    have := length_afterDots_le h'
    simp only [List.length_cons]; omega
  · have := length_afterDots_le h
    simp only [List.length_cons]; omega
  · cases h

/-! ### Whole texts -/

set_option linter.unusedVariables false in
/-- Reads segments to the end of the text. -/
def segments (size : Nat) (s : List Char) : Except ParseError (List Element) :=
  match s with
  | [] => .ok []
  | c :: s =>
    match h : segment size (c :: s) with
    | .error fault => .error fault
    | .ok (e, rest) => return e :: (← segments size rest)
termination_by s.length
decreasing_by exact length_segment_lt h

/-- The text goes on with a segment, or ends. -/
def startsSegment : List Char → Bool
  | [] => true
  | c :: _ => c = '.' || c = '['

/-- Reads a whole text. -/
def ofChars (s : List Char) : Except ParseError (List Element) :=
  match s with
  | [] => .error (.unexpectedEnd .path)
  | c :: rest =>
    if c = '$' ∧ startsSegment rest then return .root :: (← segments s.length rest)
    else if startsSegment s then segments s.length s
    else do
      let (head, rest) ← name s.length s
      return head :: (← segments s.length rest)

/-- The elements that a text describes. -/
def read (text : String) : Except ParseError (List Element) := ofChars text.toList

end Sequence

end PathContainment
