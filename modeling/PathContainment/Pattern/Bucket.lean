import PathContainment.Element.NormalForm

/-!
# Buckets of elements

The edges of the tree of patterns are sorted into three buckets by the element they carry. An element of a candidate
can only be contained in an element of certain buckets, apart from an element of the first bucket that is equal to
its normal form; the other buckets need not be searched.
-/

namespace PathContainment

inductive Bucket where
  /-- The root, names and indexes, which are found by looking them up. -/
  | exact
  /-- Any property and lists of names. -/
  | property
  /-- Everything else that describes items of an array, and filters. -/
  | index
  deriving DecidableEq, Repr

namespace Element

/-- The bucket of an element, absent for recursive descent. -/
def bucket : Element → Option Bucket
  | root | property _ | index _ => some .exact
  | anyProperty | properties _ => some .property
  | anyIndex | indexes _ | slice _ | expression _ | filter _ => some .index
  | descent _ => none

/-- The buckets in which an element can contain a candidate with the given normal form, besides the candidate's own
entry in the first bucket. A slice that covers nothing is contained in every index, and an index may contain an
expression or a slice whose indexes are unknown. -/
def candidateBuckets : Element → List Bucket
  | root | descent _ => []
  | property _ | anyProperty | properties _ => [.property]
  | index _ | anyIndex | indexes _ => [.index]
  | slice s => if s.count ≠ some 0 ∧ s.range.isSome then [.index] else [.exact, .index]
  | expression _ => [.exact, .index]
  | filter _ => [.property, .index]

end Element

end PathContainment
