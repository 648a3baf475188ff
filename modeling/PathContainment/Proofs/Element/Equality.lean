import PathContainment.Element.Containment
import PathContainment.Proofs.Slice

/-!
# Equality of elements

Elements are equal when their canonical forms are the same. The equality is an equivalence, and both sides of a
containment may be replaced by equal ones (`contains_congr_left`, `contains_congr_right`).
-/

namespace PathContainment.Element

/-- The element with the default start of its slice written out. -/
def canonical : Element → Element
  | slice s => slice s.canonical
  | descent inner => descent inner.canonical
  | e => e

theorem beq_iff {a b : Element} : (a == b) = true ↔ a.canonical = b.canonical := by
  show a.same b = true ↔ _
  induction a generalizing b with
  | slice s =>
    cases b with
    | slice t => rw [same, Slice.beq_iff, canonical, canonical, slice.injEq]
    | _ => simp [same, canonical]
  | descent x ih =>
    cases b with
    | descent y => rw [same, ih, canonical, canonical, descent.injEq]
    | _ => simp [same, canonical]
  | _ => cases b <;> simp [same, canonical]

instance : EquivBEq Element where
  rfl := beq_iff.2 rfl
  symm h := beq_iff.2 (beq_iff.1 h).symm
  trans h h' := beq_iff.2 ((beq_iff.1 h).trans (beq_iff.1 h'))

theorem kind_canonical (a : Element) : a.canonical.kind = a.kind := by cases a <;> rfl

theorem kind_congr {a b : Element} (h : (a == b) = true) : a.kind = b.kind := by
  rw [← kind_canonical a, beq_iff.1 h, kind_canonical b]

/-- Sequences are equal when their elements are, one by one. -/
theorem list_beq_iff {l l' : List Element} : (l == l') = true ↔ l.map canonical = l'.map canonical := by
  induction l generalizing l' with
  | nil => cases l' <;> simp
  | cons e l ih =>
    cases l' with
    | nil => simp
    | cons e' l' => rw [List.cons_beq_cons, Bool.and_eq_true, beq_iff, ih, List.map_cons, List.map_cons, List.cons.injEq]

instance : EquivBEq (List Element) where
  rfl := list_beq_iff.2 rfl
  symm h := list_beq_iff.2 (list_beq_iff.1 h).symm
  trans h h' := list_beq_iff.2 ((list_beq_iff.1 h).trans (list_beq_iff.1 h'))

theorem exists_cons_of_beq_cons {e : Element} {l l' : List Element} (h : (l' == e :: l) = true) :
    ∃ e' r, l' = e' :: r ∧ (e' == e) = true ∧ (r == l) = true := by
  cases l' with
  | nil => cases h
  | cons e' r =>
    rw [List.cons_beq_cons, Bool.and_eq_true] at h
    exact ⟨e', r, rfl, h⟩

theorem eq_nil_of_beq_nil {l : List Element} (h : (l == []) = true) : l = [] := by
  cases l with
  | nil => rfl
  | cons e l => cases h

private theorem contains_canonical (a c : Element) : a.canonical.contains c = a.contains c := by
  induction a generalizing c with
  | slice s =>
    rw [canonical]
    cases c <;> simp only [contains, Slice.containsIndex, Slice.isEvery, Slice.containsIndexes, Slice.containsSlice,
      Slice.range_canonical, BEq.congr_left s.canonical_beq]
  | descent inner ih =>
    rw [canonical]
    cases c <;> simp only [contains, ih]
  | _ => rfl

/-- Equal patterns contain the same elements, with the same verdicts. -/
theorem contains_congr_left {a b : Element} (h : (a == b) = true) (c : Element) : a.contains c = b.contains c := by
  rw [← contains_canonical a, beq_iff.1 h, contains_canonical b]

private theorem contains_canonical_right (a c : Element) : a.contains c.canonical = a.contains c := by
  induction c generalizing a with
  | slice t =>
    rw [canonical]
    cases a <;> simp only [contains, reduceCtorEq, Slice.allIndexes, Slice.containsSlice, Slice.range_canonical,
      BEq.congr_right t.canonical_beq]
  | descent inner ih =>
    rw [canonical]
    cases a <;> simp only [contains, reduceCtorEq, ih]
  | _ => rfl

/-- Equal candidates are contained in the same elements, with the same verdicts. -/
theorem contains_congr_right {b c : Element} (h : (b == c) = true) (a : Element) : a.contains b = a.contains c := by
  rw [← contains_canonical_right a b, beq_iff.1 h, contains_canonical_right a c]

end PathContainment.Element
