import PathContainment.Proofs.Element.Equality
import PathContainment.Proofs.IndexRange.Containment
import PathContainment.Proofs.SortedSet
import PathContainment.Proofs.Verdict

/-!
# Containment of known sets of indexes

Indexes, lists of indexes, the wildcard `[*]` and slices with a known range describe sets of array indexes that can
be told from the element alone. Between them the containment is decided (`contains_decides`): the verdict is never
unknown, and it holds exactly when the one set is a subset of the other, however the two are written.

The indexes written in the candidate have to be ones that an array can have; those of the pattern may be any.
-/

namespace PathContainment

open Verdict (Decides decides_ofBool decides_holds decides_fails)

namespace Element

/-- The indexes that the element describes, where they are known. -/
def indexSet? : Element → Option (Nat → Prop)
  | index i => some (· = i)
  | anyIndex => some fun _ => True
  | indexes is => some (· ∈ is.toList)
  | slice s => s.range.map IndexRange.Mem
  | _ => none

/-- The indexes written in the element are ones that an array can have. -/
def InReach : Element → Prop
  | index i => i ≤ maxIndex
  | indexes is => ∀ i ∈ is.toList, i ≤ maxIndex
  | descent inner => inner.InReach
  | _ => True

theorem InReach.underlying {e : Element} (h : e.InReach) : e.underlying.InReach := by
  cases e <;> exact h

theorem indexSet?_cases {e : Element} {A : Nat → Prop} (h : e.indexSet? = some A) :
    (∃ i, e = index i ∧ A = (· = i)) ∨ (e = anyIndex ∧ A = fun _ => True) ∨
      (∃ is, e = indexes is ∧ A = (· ∈ is.toList)) ∨ ∃ s r, e = slice s ∧ s.range = some r ∧ A = r.Mem := by
  cases e with
  | index i => exact .inl ⟨i, rfl, (Option.some.inj h).symm⟩
  | anyIndex => exact .inr (.inl ⟨rfl, (Option.some.inj h).symm⟩)
  | indexes is => exact .inr (.inr (.inl ⟨is, rfl, (Option.some.inj h).symm⟩))
  | slice s =>
    obtain ⟨r, hr, hA⟩ := Option.map_eq_some_iff.1 h
    exact .inr (.inr (.inr ⟨s, r, rfl, hr, hA.symm⟩))
  | _ => cases h

theorem ne_nil_of_valid_indexes {is : SortedSet Nat} (h : (indexes is).Valid) : is.toList ≠ [] := by
  intro hl
  simp [Valid, check, SortedSet.isEmpty, hl] at h

end Element

namespace Slice

variable {s : Slice} {r : IndexRange}

/-- A test that is passed by no index above a bound is passed by all indexes of finite slices only. -/
theorem allIndexes_decides {test : Nat → Bool} (hr : s.range = some r) {m : Nat}
    (hm : ∀ i, test i = true → i ≤ m) : Decides (s.allIndexes test) (∀ i, r.Mem i → test i = true) := by
  simp only [allIndexes, hr]
  cases hn : r.count with
  | none =>
    refine decides_fails fun h => ?_
    obtain ⟨i, hi, hmem⟩ := IndexRange.exists_mem_gt hn m
    have := hm i (h i hmem)
    omega
  | some n => exact decides_ofBool (IndexRange.allFrom_iff hn)

theorem containsIndexes_decides {is : SortedSet Nat} (hr : s.range = some r) (his : ∀ i ∈ is.toList, i ≤ maxIndex) :
    Decides (s.containsIndexes is) (∀ i ∈ is.toList, r.Mem i) := by
  simp only [containsIndexes, hr]
  apply decides_ofBool
  rw [Bool.or_eq_true, List.all_eq_true, IndexRange.isEvery_iff]
  constructor
  · rintro (h | h) i hi
    · exact h i
    · exact (IndexRange.containsIndex_iff.1 (h i hi)).2
  · intro h
    exact .inr fun i hi => IndexRange.containsIndex_iff.2 ⟨his i hi, h i hi⟩

theorem containsSlice_decides {t : Slice} {r' : IndexRange} (hr : s.range = some r) (hr' : t.range = some r') :
    Decides (s.containsSlice t) (∀ i, r'.Mem i → r.Mem i) := by
  simp only [containsSlice]
  by_cases hst : (s == t) = true
  · have heq : r = r' := by
      have := range_congr hst
      rw [hr, hr'] at this
      exact Option.some.inj this
    rw [hst, heq]
    exact decides_holds fun _ h => h
  · simp only [Bool.eq_false_iff.2 hst, Bool.false_eq_true, ↓reduceIte, hr, hr']
    exact decides_ofBool (IndexRange.containsRange_iff (first_le_of_range hr'))

end Slice

namespace Element

variable {b : Element} {B : Nat → Prop}

/-! ### One kind of patterns after the other -/

private theorem index_decides (i : Nat) (hb : b.indexSet? = some B) (hv : b.Valid) :
    Decides ((index i).contains b) (∀ j, B j → j = i) := by
  obtain ⟨j, rfl, rfl⟩ | ⟨rfl, rfl⟩ | ⟨js, rfl, rfl⟩ | ⟨s, r, rfl, hr, rfl⟩ := indexSet?_cases hb
  · rw [contains]
    apply decides_ofBool
    rw [decide_eq_true_eq, forall_eq]
    exact eq_comm
  · refine decides_fails fun h => ?_
    have := h (i + 1) trivial
    omega
  · rw [contains]
    apply decides_ofBool
    rw [decide_eq_true_eq]
    exact SortedSet.only?_eq_some_iff_forall (ne_nil_of_valid_indexes hv)
  · rw [contains]
    refine (Slice.allIndexes_decides hr (m := i) fun j hj => ?_).congr (by simp only [decide_eq_true_eq])
    exact Nat.le_of_eq (of_decide_eq_true hj)

private theorem anyIndex_decides (hb : b.indexSet? = some B) : Decides (anyIndex.contains b) (∀ j, B j → True) := by
  obtain ⟨j, rfl, rfl⟩ | ⟨rfl, rfl⟩ | ⟨js, rfl, rfl⟩ | ⟨s, r, rfl, hr, rfl⟩ := indexSet?_cases hb
  all_goals exact decides_holds fun _ _ => trivial

private theorem indexes_decides (is : SortedSet Nat) (hb : b.indexSet? = some B) :
    Decides ((indexes is).contains b) (∀ j, B j → j ∈ is.toList) := by
  obtain ⟨m, hm⟩ := exists_bound (fun i : Nat => i) is.toList
  obtain ⟨j, rfl, rfl⟩ | ⟨rfl, rfl⟩ | ⟨js, rfl, rfl⟩ | ⟨s, r, rfl, hr, rfl⟩ := indexSet?_cases hb
  · rw [contains]
    apply decides_ofBool
    rw [SortedSet.contains_iff, forall_eq]
  · refine decides_fails fun h => ?_
    have := hm (m + 1) (h (m + 1) trivial)
    omega
  · rw [contains]
    exact decides_ofBool SortedSet.subset_iff
  · rw [contains]
    refine (Slice.allIndexes_decides hr (m := m) fun j hj => ?_).congr (by simp only [SortedSet.contains_iff])
    exact hm j (SortedSet.contains_iff.1 hj)

private theorem slice_decides {s : Slice} {r : IndexRange} (hr : s.range = some r) (hb : b.indexSet? = some B)
    (hreach : b.InReach) : Decides ((slice s).contains b) (∀ j, B j → r.Mem j) := by
  obtain ⟨j, rfl, rfl⟩ | ⟨rfl, rfl⟩ | ⟨js, rfl, rfl⟩ | ⟨t, r', rfl, hr', rfl⟩ := indexSet?_cases hb
  · simp only [contains, Slice.containsIndex, hr, Option.map_some, Verdict.ofOption]
    apply decides_ofBool
    rw [IndexRange.containsIndex_iff, forall_eq]
    exact and_iff_right hreach
  · simp only [contains, Slice.isEvery, hr, Option.any_some]
    apply decides_ofBool
    rw [IndexRange.isEvery_iff]
    exact forall_congr' fun _ => (forall_const True).symm
  · rw [contains]
    exact Slice.containsIndexes_decides hr hreach
  · rw [contains]
    exact Slice.containsSlice_decides hr hr'

/-- Between elements with known indexes, the containment is decided by their sets of indexes. -/
theorem contains_decides {a b : Element} {A B : Nat → Prop} (ha : a.indexSet? = some A) (hb : b.indexSet? = some B)
    (hv : b.Valid) (hreach : b.InReach) : Decides (a.contains b) (∀ i, B i → A i) := by
  obtain ⟨i, rfl, rfl⟩ | ⟨rfl, rfl⟩ | ⟨is, rfl, rfl⟩ | ⟨s, r, rfl, hr, rfl⟩ := indexSet?_cases ha
  · exact index_decides i hb hv
  · exact anyIndex_decides hb
  · exact indexes_decides is hb
  · exact slice_decides hr hb hreach

end Element

end PathContainment
