import PathContainment.Verdict
import PathContainment.Element.Basic

/-!
# Containment of elements

`pattern.contains candidate` asks whether every child that the candidate can describe is described by the pattern as
well. Names and known sets of indexes are compared as sets. Expressions and filters are opaque: they contain what is
written in the same way, and what else they contain can be unknown. Recursive descent needs the surrounding path;
here it is compared with recursive descent only.
-/

namespace PathContainment

namespace Slice

/-- The test holds for all covered indexes. It fails for infinitely many indexes, without a look at them. -/
def allIndexes (s : Slice) (test : Nat → Bool) : Verdict :=
  match s.range with
  | none => .unknown
  | some r =>
    match r.count with
    | none => .fails
    | some n => .ofBool (r.allFrom test n r.first)

/-- Every index of a set is covered. -/
def containsIndexes (s : Slice) (is : SortedSet Nat) : Verdict :=
  match s.range with
  | none => .unknown
  | some r => .ofBool (r.isEvery || is.toList.all r.containsIndex)

/-- Every index that the other slice covers is covered. The same slice is contained without knowing its indexes. -/
def containsSlice (s t : Slice) : Verdict :=
  if s == t then .holds
  else match s.range, t.range with
    | some r, some r' => .ofBool (r.containsRange r')
    | _, _ => .unknown

end Slice

namespace Element

/-- Every child that the candidate can describe is described by the pattern. -/
def contains (pattern candidate : Element) : Verdict :=
  match pattern with
  | root => .ofBool (candidate = root)
  | property name =>
    match candidate with
    | property other => .ofBool (name = other)
    | properties names => .ofBool (names.only? = some name)
    | _ => .fails
  | anyProperty =>
    match candidate with
    | property _ | anyProperty | properties _ | filter _ => .holds
    | _ => .fails
  | properties names =>
    match candidate with
    | property name => .ofBool (names.contains name)
    | properties others => .ofBool (others.subset names)
    | _ => .fails
  | index i =>
    match candidate with
    | index j => .ofBool (i = j)
    | indexes js => .ofBool (js.only? = some i)
    | slice s => s.allIndexes (· = i)
    | expression _ => .unknown
    | _ => .fails
  | anyIndex =>
    match candidate with
    | index _ | anyIndex | indexes _ | slice _ | expression _ => .holds
    | _ => .fails
  | indexes is =>
    match candidate with
    | index j => .ofBool (is.contains j)
    | indexes js => .ofBool (js.subset is)
    | slice s => s.allIndexes is.contains
    | expression _ => .unknown
    | _ => .fails
  | slice s =>
    match candidate with
    | index j => .ofOption (s.containsIndex j)
    | anyIndex => .ofBool s.isEvery
    | indexes js => s.containsIndexes js
    | slice t => s.containsSlice t
    | expression _ => .unknown
    | _ => .fails
  | expression text =>
    match candidate with
    | index _ => .unknown
    | indexes js => if js.size = 1 then .unknown else .fails
    | slice s =>
      match s.range with
      | none => .unknown
      | some r => if r.count = some 1 then .unknown else .fails
    | expression other => .ofBool (text = other)
    | _ => .fails
  | filter text =>
    match candidate with
    | filter other => if text = other then .holds else .unknown
    | index _ | anyIndex | indexes _ | slice _ | expression _ => .unknown
    | _ => .fails
  | descent inner =>
    match candidate with
    | descent other => inner.contains other
    | _ => .unknown

end Element

end PathContainment
