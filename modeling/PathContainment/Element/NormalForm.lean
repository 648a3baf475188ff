import PathContainment.Element.Basic

/-!
# Normal forms of elements

Different elements can describe the same children: a list with one entry and that entry, a slice of one index and
that index, an evenly spaced list of indexes and a slice. `Element.normalForm` chooses one of them, and
`Element.isNormal` recognizes the elements that it leaves as they are written. An element is strict when it
describes exactly one child.
-/

namespace PathContainment

/-! ### Evenly spaced lists of indexes -/

/-- Each index of the list is the one before it plus the distance. -/
def spacedBy (distance : Nat) : List Nat → Bool
  | i :: j :: rest => j = i + distance && spacedBy distance (j :: rest)
  | _ => true

namespace Slice

/-- The integer as a 64-bit integer, if it is one. -/
def word? (n : Nat) : Option Int64 := if n ≤ maxIndex then some (Int64.ofNat n) else none

/-- The slice that covers an evenly spaced list of at least three indexes. The end is left out when no 64-bit integer
lies above the last index. -/
def ofEvenlySpaced? (l : List Nat) : Option Slice :=
  match l with
  | i :: j :: _ :: _ =>
    if l.all (· ≤ maxIndex) && spacedBy (j - i) l then
      (make (if i = 0 then none else some (Int64.ofNat i)) (word? (l.getLastD j + 1)) (Int64.ofNat (j - i))).toOption
    else none
  | _ => none

/-- The slice `[:0]`, which stands for all slices that cover nothing. -/
def nothing : Slice := { start := none, stop := some 0, step := 1, step_ne_zero := by decide }

/-- The element a slice with a known range is normally written as because of its indexes. -/
def ofRange? (s : Slice) (r : IndexRange) : Option Element :=
  match r.count with
  | some 0 => if s = nothing then none else some (.slice nothing)
  | some 1 => some (.index r.first.toNat)
  | _ => if r.isEvery then some .anyIndex else none

/-- The ascending slice without its start, if that is the default. -/
def withoutStart? (s : Slice) : Option Element :=
  if s.start = some 0 && 0 < s.step then some (.slice { s with start := none }) else none

/-- The element a slice is normally written as, absent when it is the slice as it is. -/
def reduced? (s : Slice) : Option Element := (s.range.bind s.ofRange?).or s.withoutStart?

end Slice

namespace Element

/-- The normal way of writing what the element describes. -/
def normalForm : Element → Element
  | properties names =>
    match names.only? with
    | some name => property name
    | none => properties names
  | indexes is =>
    match is.only? with
    | some i => index i
    | none => ((Slice.ofEvenlySpaced? is.toList).map slice).getD (indexes is)
  | slice s => s.reduced?.getD (slice s)
  | descent inner => descent inner.normalForm
  | e => e

/-- The element is written in its normal form. -/
def isNormal : Element → Bool
  | properties names => names.size ≠ 1
  | indexes is => 1 < is.size && (Slice.ofEvenlySpaced? is.toList).isNone
  | slice s => s.reduced?.isNone
  | descent inner => inner.isNormal
  | _ => true

/-- The element describes exactly one child. -/
def isStrict : Element → Bool
  | root | property _ | index _ => true
  | properties names => names.size = 1
  | indexes is => is.size = 1
  | slice s => s.range.bind (·.count) = some 1
  | _ => false

end Element

end PathContainment
