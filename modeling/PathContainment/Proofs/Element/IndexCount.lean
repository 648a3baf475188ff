import PathContainment.Proofs.Element.Exactness
import PathContainment.Proofs.Element.NormalForm

/-!
# How many indexes the normal form describes

An index stands for itself, a list for its entries, a slice for as many indexes as it counts, and `[*]` for infinitely
many. The normal form of a list or of a slice with a range describes the same indexes among those that an array can
have, and as many (`normalForm_describes`), with one exception: an evenly spaced list of at least three indexes that
ends with the largest one (`EndsEvenly`). No slice has an end after this index, so the normal form is a slice without
an end. The list is finite, but its normal form counts as infinite, and the list does not contain it
(`not_contains_normalForm_of_max`).
-/

namespace PathContainment.Element

/-- The number of indexes that the element describes, absent when it is infinite or unknown. -/
def indexCount? : Element → Option Nat
  | index _ => some 1
  | indexes is => some is.size
  | slice s => s.count
  | _ => none

/-- The element is an evenly spaced list of at least three indexes, the last of which is the largest index. -/
def EndsEvenly : Element → Prop
  | indexes is => 3 ≤ is.size ∧ (∃ d, spacedBy d is.toList = true) ∧ maxIndex ∈ is.toList
  | _ => False

variable {e : Element}

/-! ### The number of indexes -/

theorem indexCount?_normalForm_slice {s : Slice} {r : IndexRange} (hr : s.range = some r) :
    (slice s).normalForm.indexCount? = s.count := by
  rw [Slice.count_of_range hr]
  obtain ⟨h0, hn⟩ | ⟨h1, hn⟩ | ⟨hevery, hn⟩ | ⟨t, hn, ht⟩ := normalForm_slice_cases_of_range hr
  · rw [hn, h0]
    rfl
  · rw [hn, h1]
    rfl
  · rw [hn, IndexRange.count_eq_none_of_isEvery hevery]
    rfl
  · rw [hn]
    exact Slice.count_of_range ht

private theorem indexCount?_slice_of_spacing {l : List Nat} {s : Slice} (hl : l.Pairwise (· < ·))
    (hs : Slice.ofEvenlySpaced? l = some s) :
    (slice s).indexCount? = if maxIndex ∈ l then none else some l.length := by
  obtain ⟨r, i, d, n, hspacing⟩ := Slice.exists_spacing hl hs
  rw [← hspacing.count_eq]
  exact Slice.count_of_range hspacing.range_eq

theorem indexCount?_normalForm_indexes {is : SortedSet Nat} (h : ¬(indexes is).EndsEvenly) :
    (indexes is).normalForm.indexCount? = some is.size := by
  obtain ⟨i, hi, hn⟩ | ⟨s, hs, hn⟩ | hn := normalForm_indexes_cases is
  · rw [hn, SortedSet.size, SortedSet.only?_eq_some_iff.1 hi]
    rfl
  · have hspaced := (Slice.isSome_ofEvenlySpaced?_iff is.increasing).1 (Option.isSome_iff_exists.2 ⟨s, hs⟩)
    have hmax : maxIndex ∉ is.toList := fun hmax => h ⟨hspaced.1, hspaced.2.1, hmax⟩
    rw [hn, indexCount?_slice_of_spacing is.increasing hs, if_neg hmax]
    rfl
  · rw [hn]
    rfl

/-- The list that ends with the largest index becomes a slice without an end. -/
theorem indexCount?_normalForm_of_endsEvenly {is : SortedSet Nat} (hreach : (indexes is).InReach)
    (h : (indexes is).EndsEvenly) : (indexes is).normalForm.indexCount? = none := by
  obtain ⟨hthree, hspaced, hmax⟩ := h
  have hsome := (Slice.isSome_ofEvenlySpaced?_iff is.increasing).2 ⟨hthree, hspaced, hreach⟩
  obtain ⟨s, hs⟩ := Option.isSome_iff_exists.1 hsome
  have honly : is.only? = none := SortedSet.only?_eq_none_iff.2 (by omega)
  rw [normalForm, honly, hs]
  exact (indexCount?_slice_of_spacing is.increasing hs).trans (if_pos hmax)

/-! ### The indexes themselves -/

private theorem describes_index_iff {A : Nat → Prop} (h : e.indexSet? = some A) :
    e.family? = some .indexes ∧ ∀ i, e.Describes (.index i) ↔ A i := by
  have hfamily : e.family? = some .indexes := by
    obtain ⟨i, rfl, -⟩ | ⟨rfl, -⟩ | ⟨is, rfl, -⟩ | ⟨s, r, rfl, hr, -⟩ := indexSet?_cases h
    · rfl
    · rfl
    · rfl
    · rw [family?, hr]
      rfl
  obtain ⟨A', hA', hiff, -⟩ := exists_indexSet?_of_family hfamily
  obtain rfl : A = A' := Option.some.inj (h.symm.trans hA')
  exact ⟨hfamily, hiff⟩

/-- Elements that describe the index alike contain it alike. -/
private theorem contains_index_congr {a b : Element} {A B : Nat → Prop} (ha : a.indexSet? = some A)
    (hb : b.indexSet? = some B) {i : Nat} (hi : i ≤ maxIndex) (h : A i ↔ B i) :
    a.contains (index i) = b.contains (index i) := by
  have hA := contains_decides ha (b := index i) rfl rfl hi
  have hB := contains_decides hb (b := index i) rfl rfl hi
  simp only [forall_eq] at hA hB
  exact hA.unique (hB.congr h.symm)

/-- The normal form of a list or of a slice with a range describes the same indexes, among those that an array can
have, and it contains the same ones. It also describes as many indexes, unless the list is evenly spaced and ends with
the largest index: then the list has a number of indexes, and its normal form has infinitely many. -/
theorem normalForm_describes (h : (∃ is, mkIndexes is = .ok e) ∨ ∃ s r, e = slice s ∧ s.range = some r) :
    e.normalForm.family? = some .indexes ∧
    (∀ i ≤ maxIndex, (e.normalForm.Describes (.index i) ↔ e.Describes (.index i)) ∧
      e.normalForm.contains (index i) = e.contains (index i)) ∧
    (¬e.EndsEvenly → e.normalForm.indexCount? = e.indexCount?) ∧
    (e.EndsEvenly → e.normalForm.indexCount? = none ∧ e.indexCount?.isSome = true) := by
  have hset : ∃ A, e.indexSet? = some A := by
    rcases h with ⟨is, h⟩ | ⟨s, r, rfl, hr⟩
    · obtain ⟨set, rfl⟩ := exists_indexes_of_mkIndexes h
      exact ⟨_, rfl⟩
    · exact ⟨r.Mem, by rw [indexSet?, hr]; rfl⟩
  obtain ⟨A, hA⟩ := hset
  obtain ⟨A', hA', hsame⟩ := exists_indexSet?_normalForm hA
  obtain ⟨-, hdescribes⟩ := describes_index_iff hA
  obtain ⟨hfamily, hdescribes'⟩ := describes_index_iff hA'
  refine ⟨hfamily, fun i hi => ⟨?_, contains_index_congr hA' hA hi (hsame i (.inl hi))⟩, ?_⟩
  · rw [hdescribes, hdescribes', hsame i (.inl hi)]
  · rcases h with ⟨is, h⟩ | ⟨s, r, rfl, hr⟩
    · have hreach := inReach_of_mkIndexes h
      obtain ⟨set, rfl⟩ := exists_indexes_of_mkIndexes h
      exact ⟨indexCount?_normalForm_indexes, fun hend => ⟨indexCount?_normalForm_of_endsEvenly hreach hend, rfl⟩⟩
    · exact ⟨fun _ => indexCount?_normalForm_slice hr, fun hend => hend.elim⟩

/-- The list `[4,0,2]` has the normal form `[:5:2]`, with the same three indexes. -/
theorem normalForm_describes_of_list :
    ∃ e, mkIndexes [4, 0, 2] = .ok e ∧ (∀ i ≤ maxIndex, e.normalForm.Describes (.index i) ↔ e.Describes (.index i)) ∧
      e.normalForm.indexCount? = some 3 := by
  obtain ⟨e, he⟩ : ∃ e, mkIndexes [4, 0, 2] = .ok e := ⟨_, rfl⟩
  obtain ⟨-, hsame, hcount, -⟩ := normalForm_describes (.inl ⟨_, he⟩)
  have hfinite : ¬e.EndsEvenly ∧ e.indexCount? = some 3 := by
    cases he
    refine ⟨fun hend => ?_, rfl⟩
    exact absurd hend.2.2 (by decide)
  exact ⟨e, he, fun i hi => (hsame i hi).1, (hcount hfinite.1).trans hfinite.2⟩

/-- The list of the three largest indexes has the normal form `[9223372036854775805:]`, which counts as infinite and is
not contained in the list. -/
theorem not_contains_normalForm_of_max :
    ∃ e, mkIndexes [9223372036854775805, 9223372036854775806, 9223372036854775807] = .ok e ∧
      e.indexCount? = some 3 ∧ e.normalForm.indexCount? = none ∧ e.contains e.normalForm = .fails := by
  obtain ⟨e, he⟩ :
      ∃ e, mkIndexes [9223372036854775805, 9223372036854775806, 9223372036854775807] = .ok e := ⟨_, rfl⟩
  refine ⟨e, he, ?_⟩
  cases he
  decide

end PathContainment.Element
