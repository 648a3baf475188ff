import PathContainment.Proofs.Element.Bucket
import PathContainment.Proofs.Sequence.Transitivity

/-!
# Strict elements

That an element describes exactly one child is decided in three ways: `isStrict` counts the members of a list or the
indexes of a range, the normal form takes the only member or the first index of the walk, and `contains` asks for
single children. They agree. An element is strict exactly when its normal form is concrete (`isStrict_iff`), and the
normal form of a strict element is the only concrete element that it contains (`contains_iff_eq_normalForm`) and the
only one that contains it (`contains_iff_eq_normalForm_of_concrete`). So nothing else has to be looked up for it.
-/

namespace PathContainment

namespace Element

variable {e m : Element}

theorem isDescent_of_isStrict (h : e.isStrict = true) : e.isDescent = false := by
  cases e with
  | descent inner => cases h
  | _ => rfl

theorem IsConcrete.cases (h : m.IsConcrete) : m = root ∨ (∃ name, m = property name) ∨ ∃ i, m = index i := by
  cases m with
  | root => exact .inl rfl
  | property name => exact .inr (.inl ⟨name, rfl⟩)
  | index i => exact .inr (.inr ⟨i, rfl⟩)
  | _ => exact absurd h id

theorem IsConcrete.isDescent (h : m.IsConcrete) : m.isDescent = false := by
  obtain rfl | ⟨name, rfl⟩ | ⟨i, rfl⟩ := h.cases <;> rfl

theorem IsConcrete.bucket (h : m.IsConcrete) : m.bucket = some .exact := by
  obtain rfl | ⟨name, rfl⟩ | ⟨i, rfl⟩ := h.cases <;> rfl

/-- Concrete elements are written in one way only. -/
theorem IsConcrete.canonical (h : m.IsConcrete) : m.canonical = m := by
  obtain rfl | ⟨name, rfl⟩ | ⟨i, rfl⟩ := h.cases <;> rfl

theorem IsConcrete.contains_iff_eq (he : e.IsConcrete) (hm : m.IsConcrete) : e.contains m = .holds ↔ m = e := by
  obtain rfl | ⟨name, rfl⟩ | ⟨i, rfl⟩ := he.cases <;> obtain rfl | ⟨other, rfl⟩ | ⟨j, rfl⟩ := hm.cases <;>
    simp [contains]
  all_goals exact eq_comm

/-! ### What strict elements are -/

/-- A strict element is concrete, or a list with one entry, or a slice of one index. -/
theorem isStrict_cases (h : e.isStrict = true) :
    (e.IsConcrete ∧ e.normalForm = e) ∨
    (∃ names name, e = properties names ∧ names.only? = some name ∧ e.normalForm = property name) ∨
    (∃ is i, e = indexes is ∧ is.only? = some i ∧ e.normalForm = index i) ∨
    ∃ s r, e = slice s ∧ s.range = some r ∧ r.count = some 1 ∧ e.normalForm = index r.first.toNat := by
  cases e with
  | root | property | index => exact .inl ⟨trivial, rfl⟩
  | properties names =>
    obtain ⟨name, hname⟩ := SortedSet.exists_only?_of_size (of_decide_eq_true h)
    exact .inr (.inl ⟨names, name, rfl, hname, by rw [normalForm, hname]⟩)
  | indexes is =>
    obtain ⟨i, hi⟩ := SortedSet.exists_only?_of_size (of_decide_eq_true h)
    exact .inr (.inr (.inl ⟨is, i, rfl, hi, by rw [normalForm, hi]⟩))
  | slice s =>
    obtain ⟨r, hr, hcount⟩ := Option.bind_eq_some_iff.1 (of_decide_eq_true h)
    exact .inr (.inr (.inr ⟨s, r, rfl, hr, hcount, normalForm_of_count_eq_one hr hcount⟩))
  | _ => cases h

/-- The elements whose normal forms are concrete are the strict ones. -/
theorem isStrict_iff : e.isStrict = true ↔ e.normalForm.IsConcrete := by
  constructor
  · intro h
    obtain ⟨hc, hn⟩ | ⟨_, _, -, -, hn⟩ | ⟨_, _, -, -, hn⟩ | ⟨_, _, -, -, -, hn⟩ := isStrict_cases h
    · rwa [hn]
    all_goals rw [hn]; exact trivial
  · intro h
    cases e with
    | root | property | index => rfl
    | properties names =>
      obtain ⟨name, hname, -⟩ | hn := normalForm_properties_cases names
      · exact decide_eq_true (SortedSet.size_of_only? hname)
      · rw [hn] at h; exact absurd h id
    | indexes is =>
      obtain ⟨i, hi, -⟩ | ⟨s, -, hn⟩ | hn := normalForm_indexes_cases is
      · exact decide_eq_true (SortedSet.size_of_only? hi)
      · rw [hn] at h; exact absurd h id
      · rw [hn] at h; exact absurd h id
    | slice s =>
      rcases normalForm_slice_cases s with ⟨r, -, -, hn⟩ | ⟨r, hr, hcount, -⟩ | ⟨r, -, -, hn⟩ | ⟨t, hn, -⟩
      · rw [hn] at h; exact absurd h id
      · exact decide_eq_true (by rw [hr]; exact hcount)
      · rw [hn] at h; exact absurd h id
      · rw [hn] at h; exact absurd h id
    | _ => exact absurd h id

/-! ### What strict elements contain, and what contains them -/

private theorem properties_contains_iff {names : SortedSet String} {name : String}
    (hname : names.only? = some name) (hm : m.IsConcrete) :
    (properties names).contains m = .holds ↔ m = property name := by
  have hmem : ∀ other, names.contains other = true ↔ other = name := by
    intro other
    rw [SortedSet.contains_iff, SortedSet.only?_eq_some_iff.1 hname, List.mem_singleton]
  obtain rfl | ⟨other, rfl⟩ | ⟨j, rfl⟩ := hm.cases <;> simp [contains, hmem]

private theorem indexes_contains_iff {is : SortedSet Nat} {i : Nat} (hi : is.only? = some i) (hm : m.IsConcrete) :
    (indexes is).contains m = .holds ↔ m = index i := by
  have hmem : ∀ j, is.contains j = true ↔ j = i := by
    intro j
    rw [SortedSet.contains_iff, SortedSet.only?_eq_some_iff.1 hi, List.mem_singleton]
  obtain rfl | ⟨name, rfl⟩ | ⟨j, rfl⟩ := hm.cases <;> simp [contains, hmem]

private theorem slice_contains_iff {s : Slice} {r : IndexRange} (hr : s.range = some r) (hcount : r.count = some 1)
    (hm : m.IsConcrete) : (slice s).contains m = .holds ↔ m = index r.first.toNat := by
  have hmem : ∀ j, r.containsIndex j = true ↔ j = r.first.toNat := by
    intro j
    have hfirst := Slice.first_le_of_range hr
    rw [IndexRange.containsIndex_iff, IndexRange.mem_iff_of_count_eq_one hcount]
    omega
  obtain rfl | ⟨name, rfl⟩ | ⟨j, rfl⟩ := hm.cases <;>
    simp [contains, Slice.containsIndex, hr, Verdict.ofOption, hmem]

/-- A strict element contains its normal form, and no other concrete element. -/
theorem contains_iff_eq_normalForm (he : e.isStrict = true) (hm : m.IsConcrete) :
    e.contains m = .holds ↔ m = e.normalForm := by
  obtain ⟨hc, hn⟩ | ⟨names, name, rfl, hname, hn⟩ | ⟨is, i, rfl, hi, hn⟩ | ⟨s, r, rfl, hr, hcount, hn⟩ :=
    isStrict_cases he
  · rw [hn]
    exact hc.contains_iff_eq hm
  · rw [hn]
    exact properties_contains_iff hname hm
  · rw [hn]
    exact indexes_contains_iff hi hm
  · rw [hn]
    exact slice_contains_iff hr hcount hm

/-- A strict element is contained in its normal form, and in no other concrete element. -/
theorem contains_iff_eq_normalForm_of_concrete (he : e.isStrict = true) (hm : m.IsConcrete) :
    m.contains e = .holds ↔ m = e.normalForm := by
  have hn : e.normalForm.IsConcrete := isStrict_iff.1 he
  constructor
  · intro h
    have hne : m.contains e ≠ .fails := by rw [h]; decide
    rcases mem_candidateBuckets_or_beq hm.bucket hne with hmem | ⟨-, heq⟩
    · exact absurd hmem (exact_not_mem_candidateBuckets hn.bucket)
    · rw [beq_iff, hm.canonical, hn.canonical] at heq
      exact heq
  · intro h
    exact contains_of_beq_normalForm hm.bucket (by rw [h]; exact BEq.rfl)

end Element

end PathContainment
