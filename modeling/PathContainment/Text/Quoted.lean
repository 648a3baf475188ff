import PathContainment.Text.Hidden

/-!
# Quoted texts

A text between double quotation marks, in which the marks themselves, the backslash and the characters that cannot
be seen are written with a backslash.
-/

namespace PathContainment

/-- The hexadecimal digits of a number, at least as many as asked for. -/
def hexDigits (width n : Nat) : List Char :=
  let digits := Nat.toDigits 16 n
  List.replicate (width - digits.length) '0' ++ digits

/-- A character of a text between quotation marks in a display of values. -/
def displayChar (c : Char) : List Char :=
  match c with
  | '"' => ['\\', '"']
  | '\\' => ['\\', '\\']
  | '\t' => ['\\', 't']
  | '\n' => ['\\', 'n']
  | '\r' => ['\\', 'r']
  | '\x00' => ['\\', '0']
  | c => if isHidden c then ['\\', 'u', '\x7b'] ++ hexDigits 1 c.toNat ++ ['\x7d'] else [c]

/-- The text as a display of values shows it. -/
def displayText (s : String) : String := String.ofList ('"' :: s.toList.flatMap displayChar ++ ['"'])

/-- A value as a display shows it: the name of its type around its text. -/
def displayAs (title s : String) : String := title ++ "(" ++ displayText s ++ ")"

end PathContainment
