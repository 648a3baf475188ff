/-!
# White space

The white space that may surround the parts of a text: the characters with the Unicode property `White_Space`, which
are more than the four that Lean's own `Char.isWhitespace` knows.
-/

namespace PathContainment

/-- The code points with the property `White_Space`, as inclusive intervals. -/
def blankIntervals : List (Nat × Nat) :=
  [(0x09, 0x0D), (0x20, 0x20), (0x85, 0x85), (0xA0, 0xA0), (0x1680, 0x1680), (0x2000, 0x200A), (0x2028, 0x2029),
   (0x202F, 0x202F), (0x205F, 0x205F), (0x3000, 0x3000)]

def isBlank (c : Char) : Bool := blankIntervals.any fun (low, high) => low ≤ c.toNat && c.toNat ≤ high

def skipBlank (l : List Char) : List Char := l.dropWhile isBlank

/-- The text without the white space at its two ends. -/
def trim (l : List Char) : List Char := (skipBlank (skipBlank l).reverse).reverse

theorem length_skipBlank_le (l : List Char) : (skipBlank l).length ≤ l.length :=
  (List.dropWhile_sublist _).length_le

end PathContainment
