import PathContainment.Gzip.Bits

/-!
# Prefix codes

A prefix code is a binary tree with symbols at its leaves: a code word is the way from the root to a leaf. The
codes of the compression format are canonical, that is, they are determined by the lengths of the code words:
shorter words come before longer ones, and words of one length are ordered as their symbols are.
-/

namespace PathContainment.Gzip

inductive CodeTree where
  | unused
  | symbol (s : Nat)
  | branch (zero one : CodeTree)

namespace CodeTree

/-- The tree with a symbol at the end of a code word. -/
def insert (s : Nat) : List Bool → CodeTree → CodeTree
  | [], _ => symbol s
  | bit :: word, branch zero one =>
    if bit then branch zero (insert s word one) else branch (insert s word zero) one
  | bit :: word, _ => if bit then branch unused (insert s word unused) else branch (insert s word unused) unused

/-- Reads a code word. -/
def read : CodeTree → List Bool → Option (Nat × List Bool)
  | symbol s, bits => some (s, bits)
  | branch zero one, bit :: bits => if bit then one.read bits else zero.read bits
  | _, _ => none

theorem length_read_le {tree : CodeTree} {bits rest : List Bool} {s : Nat} (h : tree.read bits = some (s, rest)) :
    rest.length ≤ bits.length := by
  induction tree generalizing bits with
  | unused => cases h
  | symbol t => cases h; exact Nat.le_refl _
  | branch zero one ihz iho =>
    cases bits with
    | nil => cases h
    | cons bit bits =>
      cases bit
      · exact Nat.le_succ_of_le (ihz h)
      · exact Nat.le_succ_of_le (iho h)

end CodeTree

/-- A prefix code without the empty code word: the trees for the words that begin with `0` and with `1`. -/
structure PrefixCode where
  zero : CodeTree
  one : CodeTree

namespace PrefixCode

/-- Reads a code word, which takes at least one bit. -/
def read (code : PrefixCode) : List Bool → Option (Nat × List Bool)
  | [] => none
  | bit :: bits => if bit then code.one.read bits else code.zero.read bits

theorem length_read_lt {code : PrefixCode} {bits rest : List Bool} {s : Nat}
    (h : code.read bits = some (s, rest)) : rest.length < bits.length := by
  cases bits with
  | nil => cases h
  | cons bit bits =>
    cases bit
    · exact Nat.lt_succ_of_le (CodeTree.length_read_le h)
    · exact Nat.lt_succ_of_le (CodeTree.length_read_le h)

/-- The longest code word. -/
def maxLength : Nat := 15

/-- The symbols whose code words have a length, in their order. -/
def symbolsOfLength (lengths : List Nat) (length : Nat) : List Nat :=
  (lengths.zipIdx.filter fun (l, _) => l = length).map (·.2)

/-- The bits of a code word, from the highest one on. -/
def word (length value : Nat) : List Bool := ((List.range length).map value.testBit).reverse

/-- The canonical code words for the symbols, from those of a length on, where `value` is the first code word of that
length and `levels` is the number of lengths to go on with. -/
def canonicalWords (lengths : List Nat) : (levels length value : Nat) → List (List Bool × Nat)
  | 0, _, _ => []
  | levels + 1, length, value =>
    let symbols := symbolsOfLength lengths length
    symbols.zipIdx.map (fun (s, i) => (word length (value + i), s)) ++
      canonicalWords lengths levels (length + 1) (2 * (value + symbols.length))

/-- How much of all code words of the greatest length is used up by words of the given lengths. -/
def usage (lengths : List Nat) : Nat :=
  lengths.foldl (fun used length => if length = 0 then used else used + (1 <<< (maxLength - length))) 0

/-- There is no symbol at all, or a single one with a code word of one bit. -/
def isTrivial (lengths : List Nat) : Bool := lengths.countP (· ≠ 0) ≤ 1 && lengths.all (· ≤ 1)

/-- The canonical code for the lengths of the code words of the symbols `0`, `1`, …, where `0` stands for a symbol
that is not used. All code words have to be used up; a trivial code may be incomplete, if that is allowed. -/
def ofLengths? (mayBeIncomplete : Bool) (lengths : List Nat) : Option PrefixCode :=
  if usage lengths = 1 <<< maxLength ∨ (mayBeIncomplete ∧ isTrivial lengths) then
    match (canonicalWords lengths maxLength 1 0).foldl (fun tree (word, s) => CodeTree.insert s word tree)
        (CodeTree.branch .unused .unused) with
    | .branch zero one => some { zero, one }
    | _ => none
  else none

end PrefixCode

end PathContainment.Gzip
