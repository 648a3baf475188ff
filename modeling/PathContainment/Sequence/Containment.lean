import PathContainment.Element.Containment

/-!
# Containment of sequences

A sequence of elements contains another one when it can be laid out along it: its elements are compared with
elements of the candidate from left to right, the first with the first and the last with the last, and only in
front of a recursive descent elements of the candidate may be passed over. The verdict of a layout is the least
verdict of the pairs in it, and the verdict of the sequences is the greatest one of all layouts.
-/

namespace PathContainment

namespace Element

/-- The verdict on an element of the candidate that an element of the pattern is laid out on. A recursive descent has
found its place there, so that its inner element is compared, with the inner one of a recursive descent. -/
def meets : Element → Element → Verdict
  | descent inner, descent other => inner.contains other
  | descent inner, candidate => inner.contains candidate
  | pattern, candidate => pattern.contains candidate

end Element

namespace Sequence

/-- The greatest verdict of `f` over the ways to pass over elements of a list, where `f` is given the first element
that is not passed over and those after it. -/
def passingOver (f : Element → List Element → Verdict) : List Element → Verdict
  | [] => .fails
  | e :: rest => (f e rest).or (passingOver f rest)

/-- The verdict on the containment of sequences. -/
def contains : List Element → List Element → Verdict
  | [], candidate => .ofBool candidate.isEmpty
  | e :: pattern, candidate =>
    if e.isDescent then passingOver (fun c rest => (e.meets c).and (contains pattern rest)) candidate
    else
      match candidate with
      | [] => .fails
      | c :: rest => (e.meets c).and (contains pattern rest)

end Sequence

end PathContainment
