import PathContainment.Text.Quoted
import PathContainment.Text.Truth

/-!
# JSON values and their text

Values of the JSON format, and the two ways of writing them: on one line without white space, and on a line for
every item of a list and every member of an object, indented by two blanks for each level.
-/

namespace PathContainment

inductive Json where
  | null
  | bool (b : Bool)
  | integer (n : Int)
  /-- A number that is no integer, as it is written. -/
  | fraction (digits : String)
  | string (s : String)
  | array (items : List Json)
  | object (members : List (String × Json))
  deriving Inhabited

namespace Json

/-- A character between quotation marks. Characters other than the mark, the backslash and the control characters
stand for themselves. -/
def escapeChar (c : Char) : List Char :=
  match c with
  | '"' => ['\\', '"']
  | '\\' => ['\\', '\\']
  | '\x08' => ['\\', 'b']
  | '\t' => ['\\', 't']
  | '\n' => ['\\', 'n']
  | '\x0c' => ['\\', 'f']
  | '\r' => ['\\', 'r']
  | c => if c.toNat < 0x20 then ['\\', 'u'] ++ hexDigits 4 c.toNat else [c]

def quote (s : String) : List Char := '"' :: s.toList.flatMap escapeChar ++ ['"']

/-- The text of a value that has no parts. -/
def scalarChars : Json → List Char
  | null => "null".toList
  | bool b => (truthWord b).toList
  | integer n => (toString n).toList
  | fraction digits => digits.toList
  | string s => quote s
  | array _ => "[]".toList
  | object _ => ['\x7b', '\x7d']

/-- A line break and the indentation of a level. -/
def newline (level : Nat) : List Char := '\n' :: List.replicate (2 * level) ' '

mutual
/-- The text of a value over several lines, whose first line is indented already. -/
def prettyChars (level : Nat) : Json → List Char
  | array (item :: rest) =>
    '[' :: newline (level + 1) ++ prettyChars (level + 1) item ++ prettyItems level rest ++ newline level ++ [']']
  | object ((key, value) :: rest) =>
    '\x7b' :: newline (level + 1) ++ quote key ++ ": ".toList ++ prettyChars (level + 1) value ++
      prettyMembers level rest ++ newline level ++ ['\x7d']
  | value => scalarChars value
/-- The items after the first one. -/
def prettyItems (level : Nat) : List Json → List Char
  | [] => []
  | item :: rest => ',' :: newline (level + 1) ++ prettyChars (level + 1) item ++ prettyItems level rest
/-- The members after the first one. -/
def prettyMembers (level : Nat) : List (String × Json) → List Char
  | [] => []
  | (key, value) :: rest =>
    ',' :: newline (level + 1) ++ quote key ++ ": ".toList ++ prettyChars (level + 1) value ++
      prettyMembers level rest
end

/-- The text of a value over several lines. -/
def pretty (value : Json) : String := String.ofList (prettyChars 0 value)

end Json

end PathContainment
