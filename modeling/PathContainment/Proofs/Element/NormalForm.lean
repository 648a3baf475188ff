import PathContainment.Proofs.Element.IndexSet
import PathContainment.Proofs.Element.NameSet
import PathContainment.Proofs.Slice.EvenlySpaced
import PathContainment.Sequence.Validity

/-!
# What normal forms describe

The normal form of an element describes the same indexes (`indexSet?_normalForm`) or the same names
(`nameSet?_normalForm`), or it is equal to the element (`normalForm_beq`). The largest index must not be listed,
because `Slice.ofEvenlySpaced?` replaces a list that ends with it by a slice without an end.

Only lists and slices are rewritten. What becomes of them is told once, by `normalForm_properties_cases`,
`normalForm_indexes_cases` and `normalForm_slice_cases`. It is rewritten no further (`isNormal_normalForm`): a slice
that replaces a list covers at least three indexes, and not all of them, as long as the list does not.
-/

namespace PathContainment

namespace Slice

variable {s : Slice} {e : Element}

theorem not_mem_range_nothing : ∃ r, nothing.range = some r ∧ ∀ i, ¬r.Mem i := by
  refine ⟨_, rfl, fun i hi => ?_⟩
  have := (IndexRange.mem_iff_of_count_eq_some (n := 0) rfl).1 hi
  omega

private theorem withoutStart_beq (hstart : s.start = some 0) (hstep : 0 < s.step) :
    (({ s with start := none } : Slice) == s) = true := by
  rw [beq_iff]
  simp [canonical, effectiveStart, hstart, hstep]

private theorem eq_of_withoutStart? (h : s.withoutStart? = some e) :
    (s.start = some 0 ∧ 0 < s.step) ∧ e = .slice { s with start := none } := by
  unfold withoutStart? at h
  split at h
  · rename_i hc
    simp only [Bool.and_eq_true, decide_eq_true_eq] at hc
    exact ⟨hc, (Option.some.inj h).symm⟩
  · cases h

private theorem reduced?_cases (h : s.reduced? = some e) :
    (∃ r, s.range = some r ∧ r.count = some 0 ∧ e = .slice nothing) ∨
    (∃ r, s.range = some r ∧ r.count = some 1 ∧ e = .index r.first.toNat) ∨
    (∃ r, s.range = some r ∧ r.isEvery = true ∧ e = .anyIndex) ∨
    ∃ t, e = .slice t ∧ (t == s) = true := by
  rcases Option.or_eq_some_iff.1 h with h | ⟨-, h⟩
  · obtain ⟨r, hr, h⟩ := Option.bind_eq_some_iff.1 h
    unfold ofRange? at h
    split at h
    · rename_i hn
      split at h
      · cases h
      · exact .inl ⟨r, hr, hn, (Option.some.inj h).symm⟩
    · rename_i hn
      exact .inr (.inl ⟨r, hr, hn, (Option.some.inj h).symm⟩)
    · split at h
      · rename_i hevery
        exact .inr (.inr (.inl ⟨r, hr, hevery, (Option.some.inj h).symm⟩))
      · cases h
  · obtain ⟨⟨hstart, hstep⟩, rfl⟩ := eq_of_withoutStart? h
    exact .inr (.inr (.inr ⟨_, rfl, withoutStart_beq hstart hstep⟩))

/-! ### Slices that are left as they are -/

private theorem ofRange?_eq_none_iff {r : IndexRange} :
    s.ofRange? r = none ↔ (r.count = some 0 → s = nothing) ∧ r.count ≠ some 1 ∧ r.isEvery = false := by
  unfold ofRange?
  split
  · rename_i hn
    have hnot : r.isEvery = false := by
      refine Bool.eq_false_iff.2 fun hevery => ?_
      rw [IndexRange.count_eq_none_of_isEvery hevery] at hn
      cases hn
    simp [hn, hnot]
  · rename_i hn
    simp [hn]
  · rename_i h0 h1
    simp only [ite_eq_right_iff, reduceCtorEq, imp_false, Bool.not_eq_true]
    exact ⟨fun hnot => ⟨fun h => (h0 h).elim, h1, hnot⟩, fun h => h.2.2⟩

theorem reduced?_eq_none_iff :
    s.reduced? = none ↔ (∀ r, s.range = some r →
      (r.count = some 0 → s = nothing) ∧ r.count ≠ some 1 ∧ r.isEvery = false) ∧
      ¬(s.start = some 0 ∧ 0 < s.step) := by
  simp only [reduced?, withoutStart?, Option.or_eq_none_iff, Option.bind_eq_none_iff, ofRange?_eq_none_iff,
    Bool.and_eq_true, decide_eq_true_eq, ite_eq_right_iff, reduceCtorEq, imp_false]

/-- A slice is replaced by something that is left as it is. -/
theorem isNormal_of_reduced? (h : s.reduced? = some e) : e.isNormal = true := by
  rcases Option.or_eq_some_iff.1 h with h | ⟨hnone, h⟩
  · obtain ⟨r, -, h⟩ := Option.bind_eq_some_iff.1 h
    unfold ofRange? at h
    split at h
    · split at h
      · cases h
      · cases h
        rfl
    · cases h
      rfl
    · split at h
      · cases h
        rfl
      · cases h
  · obtain ⟨⟨hstart, hstep⟩, rfl⟩ := eq_of_withoutStart? h
    show Option.isNone _ = true
    rw [Option.isNone_iff_eq_none, reduced?_eq_none_iff]
    refine ⟨fun r hr => ?_, fun hc => by cases hc.1⟩
    rw [range_congr (withoutStart_beq hstart hstep)] at hr
    rw [hr, Option.bind_some, ofRange?_eq_none_iff] at hnone
    refine ⟨fun h0 => ?_, hnone.2⟩
    -- the slice that covers nothing and is left as it is has no start
    rw [hnone.1 h0] at hstart
    cases hstart

/-- A slice that is written for an evenly spaced list is left as it is, unless it covers everything. -/
theorem Spacing.reduced?_eq_none {l : List Nat} {r : IndexRange} {i d n : Nat} (h : Spacing l s r i d n)
    (hlen : l.length ≤ maxIndex) : s.reduced? = none := by
  have htwo := h.two_le
  have hlength := h.length_eq
  have hcount : ∀ m, r.count = some m → 3 ≤ m := by
    intro m hm
    rw [h.count_eq] at hm
    split at hm
    · cases hm
    · cases hm
      omega
  rw [reduced?_eq_none_iff]
  refine ⟨fun r' hr => ?_, fun hc => h.start_ne hc.1⟩
  obtain rfl : r = r' := Option.some.inj (h.range_eq.symm.trans hr)
  refine ⟨fun h0 => ?_, fun h1 => ?_, h.isEvery_eq_false hlen⟩
  · have := hcount 0 h0
    omega
  · have := hcount 1 h1
    omega

end Slice

namespace Element

/-- No list of indexes contains the largest index. -/
def ListsNoMax : Element → Prop
  | indexes is => maxIndex ∉ is.toList
  | descent inner => inner.ListsNoMax
  | _ => True

/-- No list of indexes has an entry for each of the indexes that an array can have. -/
def ListsBounded : Element → Prop
  | indexes is => is.size ≤ maxIndex
  | descent inner => inner.ListsBounded
  | _ => True

variable {e : Element} {A : Nat → Prop}

theorem ListsNoMax.underlying (h : e.ListsNoMax) : e.underlying.ListsNoMax := by
  cases e <;> exact h

/-! ### How elements are rewritten -/

theorem normalForm_properties_cases (names : SortedSet String) :
    (∃ name, names.only? = some name ∧ (properties names).normalForm = property name) ∨
      (properties names).normalForm = properties names := by
  rw [normalForm]
  cases h : names.only? with
  | some name => exact .inl ⟨name, rfl, rfl⟩
  | none => exact .inr rfl

theorem normalForm_indexes_cases (is : SortedSet Nat) :
    (∃ i, is.only? = some i ∧ (indexes is).normalForm = index i) ∨
    (∃ s, Slice.ofEvenlySpaced? is.toList = some s ∧ (indexes is).normalForm = slice s) ∨
    (indexes is).normalForm = indexes is := by
  rw [normalForm]
  cases hi : is.only? with
  | some i => exact .inl ⟨i, rfl, rfl⟩
  | none =>
    cases hs : Slice.ofEvenlySpaced? is.toList with
    | some s => exact .inr (.inl ⟨s, rfl, rfl⟩)
    | none => exact .inr (.inr rfl)

theorem normalForm_slice_cases (s : Slice) :
    (∃ r, s.range = some r ∧ r.count = some 0 ∧ (slice s).normalForm = slice Slice.nothing) ∨
    (∃ r, s.range = some r ∧ r.count = some 1 ∧ (slice s).normalForm = index r.first.toNat) ∨
    (∃ r, s.range = some r ∧ r.isEvery = true ∧ (slice s).normalForm = anyIndex) ∨
    ∃ t, (slice s).normalForm = slice t ∧ (t == s) = true := by
  rw [normalForm]
  cases h : s.reduced? with
  | none => exact .inr (.inr (.inr ⟨s, rfl, BEq.rfl⟩))
  | some e => exact Slice.reduced?_cases h

/-- What becomes of a slice with a known range. -/
theorem normalForm_slice_cases_of_range {s : Slice} {r : IndexRange} (hr : s.range = some r) :
    (r.count = some 0 ∧ (slice s).normalForm = slice Slice.nothing) ∨
    (r.count = some 1 ∧ (slice s).normalForm = index r.first.toNat) ∨
    (r.isEvery = true ∧ (slice s).normalForm = anyIndex) ∨
    ∃ t, (slice s).normalForm = slice t ∧ t.range = some r := by
  have heq : ∀ r', s.range = some r' → r' = r := fun r' hr' => Option.some.inj (hr'.symm.trans hr)
  rcases normalForm_slice_cases s with ⟨r', hr', h0, hn⟩ | ⟨r', hr', h1, hn⟩ | ⟨r', hr', hevery, hn⟩ | ⟨t, hn, ht⟩
  · obtain rfl := heq r' hr'
    exact .inl ⟨h0, hn⟩
  · obtain rfl := heq r' hr'
    exact .inr (.inl ⟨h1, hn⟩)
  · obtain rfl := heq r' hr'
    exact .inr (.inr (.inl ⟨hevery, hn⟩))
  · exact .inr (.inr (.inr ⟨t, hn, (Slice.range_congr ht).trans hr⟩))

theorem normalForm_of_count_eq_zero {s : Slice} {r : IndexRange} (hr : s.range = some r) (hn : r.count = some 0) :
    (slice s).normalForm = slice Slice.nothing := by
  rw [normalForm, Slice.reduced?, hr, Option.bind_some]
  by_cases hs : s = Slice.nothing
  · subst hs
    cases hr
    rfl
  · simp [Slice.ofRange?, hn, hs]

theorem normalForm_of_count_eq_one {s : Slice} {r : IndexRange} (hr : s.range = some r) (hn : r.count = some 1) :
    (slice s).normalForm = index r.first.toNat := by
  simp [normalForm, Slice.reduced?, hr, Slice.ofRange?, hn]

theorem normalForm_of_isEvery {s : Slice} {r : IndexRange} (hr : s.range = some r) (hevery : r.isEvery = true) :
    (slice s).normalForm = anyIndex := by
  have hn := IndexRange.count_eq_none_of_isEvery hevery
  simp [normalForm, Slice.reduced?, hr, Slice.ofRange?, hn, hevery]

/-- Other slices are left as they are, but for the default start. -/
theorem normalForm_slice_beq {s : Slice}
    (h : ∀ r, s.range = some r → r.count ≠ some 0 ∧ r.count ≠ some 1 ∧ r.isEvery = false) :
    ((slice s).normalForm == slice s) = true := by
  rcases normalForm_slice_cases s with ⟨r, hr, h0, -⟩ | ⟨r, hr, h1, -⟩ | ⟨r, hr, hevery, -⟩ | ⟨t, ht, heq⟩
  · exact absurd h0 (h r hr).1
  · exact absurd h1 (h r hr).2.1
  · rw [(h r hr).2.2] at hevery
    cases hevery
  · rw [ht]
    exact heq

/-! ### Sets of indexes and of names -/

/-- The normal form describes the same indexes among those that an array can have, and the same indexes at all if the
largest one is not listed. -/
theorem exists_indexSet?_normalForm (h : e.indexSet? = some A) :
    ∃ A', e.normalForm.indexSet? = some A' ∧ ∀ i, i ≤ maxIndex ∨ e.ListsNoMax → (A' i ↔ A i) := by
  obtain ⟨i, rfl, rfl⟩ | ⟨rfl, rfl⟩ | ⟨is, rfl, rfl⟩ | ⟨s, r, rfl, hr, rfl⟩ := indexSet?_cases h
  · exact ⟨_, rfl, fun j _ => Iff.rfl⟩
  · exact ⟨_, rfl, fun j _ => Iff.rfl⟩
  · obtain ⟨i, hi, hn⟩ | ⟨s, hs, hn⟩ | hn := normalForm_indexes_cases is
    · rw [hn, SortedSet.only?_eq_some_iff.1 hi]
      exact ⟨_, rfl, fun j _ => List.mem_singleton.symm⟩
    · rw [hn]
      obtain ⟨r, i, d, n, hspacing⟩ := Slice.exists_spacing is.increasing hs
      exact ⟨r.Mem, by rw [indexSet?, hspacing.range_eq]; rfl, fun j hj => hspacing.mem_range_iff hj⟩
    · rw [hn]
      exact ⟨_, rfl, fun j _ => Iff.rfl⟩
  · obtain ⟨h0, hn⟩ | ⟨h1, hn⟩ | ⟨hevery, hn⟩ | ⟨t, hn, ht⟩ := normalForm_slice_cases_of_range hr
    · rw [hn]
      obtain ⟨r₀, hr₀, hmem⟩ := Slice.not_mem_range_nothing
      refine ⟨r₀.Mem, by rw [indexSet?, hr₀]; rfl, fun i _ => iff_of_false (hmem i) fun hi => ?_⟩
      have := (IndexRange.mem_iff_of_count_eq_some h0).1 hi
      omega
    · rw [hn]
      exact ⟨_, rfl, fun j _ => (IndexRange.mem_iff_of_count_eq_one h1).symm⟩
    · rw [hn]
      exact ⟨_, rfl, fun i _ => iff_of_true trivial (IndexRange.isEvery_iff.1 hevery i)⟩
    · rw [hn]
      exact ⟨r.Mem, by rw [indexSet?, ht]; rfl, fun i _ => Iff.rfl⟩

/-- The normal form describes the same indexes. -/
theorem indexSet?_normalForm (h : e.indexSet? = some A) (hmax : e.ListsNoMax) :
    ∃ A', e.normalForm.indexSet? = some A' ∧ ∀ i, A' i ↔ A i := by
  obtain ⟨A', hA', hiff⟩ := exists_indexSet?_normalForm h
  exact ⟨A', hA', fun i => hiff i (.inr hmax)⟩

/-- The normal form describes the same names. -/
theorem nameSet?_normalForm {A : String → Prop} (h : e.nameSet? = some A) :
    ∃ A', e.normalForm.nameSet? = some A' ∧ ∀ name, A' name ↔ A name := by
  obtain ⟨name, rfl, rfl⟩ | ⟨rfl, rfl⟩ | ⟨names, rfl, rfl⟩ := nameSet?_cases h
  · exact ⟨_, rfl, fun n => Iff.rfl⟩
  · exact ⟨_, rfl, fun n => Iff.rfl⟩
  · obtain ⟨name, hname, hn⟩ | hn := normalForm_properties_cases names
    · rw [hn, SortedSet.only?_eq_some_iff.1 hname]
      exact ⟨_, rfl, fun n => List.mem_singleton.symm⟩
    · rw [hn]
      exact ⟨_, rfl, fun n => Iff.rfl⟩

/-- An element that describes neither known indexes nor names is left as it is, but for the default start. -/
theorem normalForm_beq (hd : e.isDescent = false) (hi : e.indexSet? = none) (hn : e.nameSet? = none) :
    (e.normalForm == e) = true := by
  cases e with
  | slice s =>
    have hr : s.range = none := Option.map_eq_none_iff.1 hi
    refine normalForm_slice_beq fun r hr' => ?_
    rw [hr] at hr'
    cases hr'
  | descent inner => cases hd
  | index i => cases hi
  | anyIndex => cases hi
  | indexes is => cases hi
  | property name => cases hn
  | anyProperty => cases hn
  | properties names => cases hn
  | _ => exact BEq.rfl

/-! ### What normal forms keep -/

private theorem normalForm_slice_congr {s t : Slice} (h : (s == t) = true) :
    ((slice s).normalForm == (slice t).normalForm) = true := by
  have hrange := Slice.range_congr h
  by_cases hs : ∀ r, s.range = some r → r.count ≠ some 0 ∧ r.count ≠ some 1 ∧ r.isEvery = false
  · have ht := hs
    rw [hrange] at ht
    exact BEq.trans (normalForm_slice_beq hs) (BEq.trans h (BEq.symm (normalForm_slice_beq ht)))
  · obtain ⟨r, hr, hcase⟩ : ∃ r, s.range = some r ∧ (r.count = some 0 ∨ r.count = some 1 ∨ r.isEvery = true) := by
      simpa [not_and_or, or_iff_not_imp_left] using hs
    have hr' : t.range = some r := hrange.symm.trans hr
    rcases hcase with h0 | h1 | hevery
    · rw [normalForm_of_count_eq_zero hr h0, normalForm_of_count_eq_zero hr' h0]
      exact BEq.rfl
    · rw [normalForm_of_count_eq_one hr h1, normalForm_of_count_eq_one hr' h1]
      exact BEq.rfl
    · rw [normalForm_of_isEvery hr hevery, normalForm_of_isEvery hr' hevery]
      exact BEq.rfl

/-- Equal elements have equal normal forms. -/
theorem normalForm_congr {a b : Element} (h : (a == b) = true) : (a.normalForm == b.normalForm) = true := by
  induction a generalizing b with
  | slice s =>
    cases b with
    | slice t => exact normalForm_slice_congr h
    | _ => cases h
  | descent x ih =>
    cases b with
    | descent y => exact ih h
    | _ => cases h
  | _ =>
    obtain rfl := of_decide_eq_true h
    exact BEq.rfl

/-- Equal elements are strict at the same time. -/
theorem isStrict_congr {a b : Element} (h : (a == b) = true) : a.isStrict = b.isStrict := by
  cases a with
  | slice s =>
    cases b with
    | slice t => rw [isStrict, isStrict, Slice.range_congr h]
    | _ => cases h
  | descent x =>
    cases b with
    | descent y => rfl
    | _ => cases h
  | _ =>
    obtain rfl := of_decide_eq_true h
    rfl

/-- Normal forms stay in reach: the only index of a slice is the first one of its walk. -/
theorem InReach.normalForm (h : e.InReach) : e.normalForm.InReach := by
  induction e with
  | properties names =>
    obtain ⟨name, -, hn⟩ | hn := normalForm_properties_cases names
    all_goals rw [hn]; exact trivial
  | indexes is =>
    obtain ⟨i, hi, hn⟩ | ⟨s, -, hn⟩ | hn := normalForm_indexes_cases is
    · rw [hn]
      exact h i (by rw [SortedSet.only?_eq_some_iff.1 hi]; exact List.mem_cons_self ..)
    · rw [hn]; exact trivial
    · rw [hn]; exact h
  | slice s =>
    rcases normalForm_slice_cases s with ⟨r, hr, -, hn⟩ | ⟨r, hr, -, hn⟩ | ⟨r, hr, -, hn⟩ | ⟨t, hn, -⟩
    · rw [hn]; exact trivial
    · have hfirst := Slice.first_le_of_range hr
      rw [hn]
      show r.first.toNat ≤ maxIndex
      omega
    · rw [hn]; exact trivial
    · rw [hn]; exact trivial
  | descent inner ih => exact ih h
  | _ => exact h

theorem isDescent_normalForm (e : Element) : e.normalForm.isDescent = e.isDescent := by
  cases e with
  | properties names =>
    obtain ⟨name, -, hn⟩ | hn := normalForm_properties_cases names
    all_goals exact (congrArg isDescent hn).trans rfl
  | indexes is =>
    obtain ⟨i, -, hn⟩ | ⟨s, -, hn⟩ | hn := normalForm_indexes_cases is
    all_goals exact (congrArg isDescent hn).trans rfl
  | slice s =>
    rcases normalForm_slice_cases s with ⟨r, -, -, hn⟩ | ⟨r, -, -, hn⟩ | ⟨r, -, -, hn⟩ | ⟨t, hn, -⟩
    all_goals exact (congrArg isDescent hn).trans rfl
  | _ => rfl

/-- An element that is written in its normal form is its normal form. -/
theorem normalForm_of_isNormal (h : e.isNormal = true) : e.normalForm = e := by
  induction e with
  | properties names =>
    have hs : names.only? = none := SortedSet.only?_eq_none_iff.2 (of_decide_eq_true h)
    rw [normalForm, hs]
  | indexes is =>
    simp only [isNormal, Bool.and_eq_true, decide_eq_true_eq, Option.isNone_iff_eq_none] at h
    have hs : is.only? = none := SortedSet.only?_eq_none_iff.2 (by omega)
    rw [normalForm, hs]
    show ((Slice.ofEvenlySpaced? is.toList).map slice).getD _ = _
    rw [h.2]; rfl
  | slice s =>
    have hs : s.reduced? = none := Option.isNone_iff_eq_none.1 h
    rw [normalForm, hs]; rfl
  | descent inner ih => rw [normalForm, ih h]
  | _ => rfl

/-- Normal forms are written in their normal form. -/
theorem isNormal_normalForm (hv : e.Valid) (hb : e.ListsBounded) : e.normalForm.isNormal = true := by
  induction e with
  | properties names =>
    rw [normalForm]
    cases hname : names.only? with
    | some name => rfl
    | none => exact decide_eq_true (SortedSet.only?_eq_none_iff.1 hname)
  | indexes is =>
    rw [normalForm]
    cases hi : is.only? with
    | some i => rfl
    | none =>
      cases hs : Slice.ofEvenlySpaced? is.toList with
      | some s =>
        obtain ⟨r, i, d, n, hspacing⟩ := Slice.exists_spacing is.increasing hs
        exact Option.isNone_iff_eq_none.2 (hspacing.reduced?_eq_none hb)
      | none =>
        have htwo := SortedSet.two_le_size (ne_nil_of_valid_indexes hv) hi
        show (1 < is.size && (Slice.ofEvenlySpaced? is.toList).isNone) = true
        rw [hs, Option.isNone_none, Bool.and_true, decide_eq_true_eq]
        omega
  | slice s =>
    rw [normalForm]
    cases hs : s.reduced? with
    | some e => exact Slice.isNormal_of_reduced? hs
    | none => exact Option.isNone_iff_eq_none.2 hs
  | descent inner ih =>
    obtain ⟨-, -, hv⟩ := valid_descent_iff.1 hv
    exact ih hv hb
  | _ => rfl

end Element

end PathContainment
