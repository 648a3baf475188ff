import PathContainment.Element.Basic
import PathContainment.Text.Decimal

/-!
# The canonical text of a sequence of elements

Every element has one way of writing it. A name is written after a dot, or plainly at the start of the text, unless
one of the characters `[`, `]`, `.`, `*` in it, or its being empty, forces the form `['name']`; a name `$` at the
start is bracketed as well, since it would be read as the root. The other elements stand in brackets, and recursive
descent is written as two dots before the inner element.
-/

namespace PathContainment

/-- The name can be written without brackets. -/
def isSimpleName (name : List Char) : Bool :=
  name ≠ [] && !name.any (· ∈ ['[', ']', '.', '*'])

namespace Element

/-- The name between quotes. -/
def quoted (name : String) : List Char := '\'' :: name.toList ++ ['\'']

/-- The content between square brackets. -/
def bracketed (content : List Char) : List Char := '[' :: content ++ [']']

/-- The entries with commas between them. -/
def listed (entries : List (List Char)) : List Char := List.intercalate [','] entries

/-- The parts of a slice; the step `1` is left out. -/
def sliceChars (s : Slice) : List Char :=
  ((s.start.map Decimal.ofWord).getD []) ++ ':' :: ((s.stop.map Decimal.ofWord).getD []) ++
    (if s.step = 1 then [] else ':' :: Decimal.ofWord s.step)

/-- The text of an element, which takes a leading dot if it follows another element. -/
def chars (follows : Bool) : Element → List Char
  | root => ['$']
  | property name =>
    if isSimpleName name.toList && (follows || name ≠ "$") then
      if follows then '.' :: name.toList else name.toList
    else bracketed (quoted name)
  | anyProperty => if follows then ['.', '*'] else ['*']
  | properties names => bracketed (listed (names.toList.map quoted))
  | index i => bracketed (Decimal.ofNat i)
  | anyIndex => bracketed ['*']
  | indexes is => bracketed (listed (is.toList.map Decimal.ofNat))
  | slice s => bracketed (sliceChars s)
  | expression text => bracketed ('(' :: text.toList ++ [')'])
  | filter text => bracketed ('?' :: '(' :: text.toList ++ [')'])
  | descent inner => '.' :: '.' :: inner.chars false

/-- The text of an element on its own. -/
def text (e : Element) : String := String.ofList (e.chars false)

end Element

namespace Sequence

/-- The text of a sequence. -/
def chars : List Element → List Char
  | [] => []
  | first :: rest => first.chars false ++ rest.flatMap (Element.chars true)

def text (elements : List Element) : String := String.ofList (chars elements)

end Sequence

end PathContainment
