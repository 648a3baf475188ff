import PathContainment.Proofs.Element.NormalForm

/-!
# Containment of normal forms

Since the containment of known sets is decided by the sets, a verdict that is not unknown is that on the normal forms
as well, of the pattern (`contains_normalForm_left`) and of the candidate (`contains_normalForm_right`). Where one side
has no known set, the verdict is told by the kinds of the two elements.
-/

namespace PathContainment

/-- Nothing can be told about two slices of which only one has a known range. -/
theorem Slice.containsSlice_eq_unknown {s t : Slice} (h : s.range.isSome ≠ t.range.isSome) :
    s.containsSlice t = .unknown := by
  have hne : ¬(s == t) = true := fun hst => h (by rw [Slice.range_congr hst])
  rw [containsSlice, if_neg hne]
  cases hs : s.range with
  | none => rfl
  | some r =>
    cases ht : t.range with
    | none => rfl
    | some r' => rw [hs, ht] at h; exact absurd rfl h

namespace Element

variable {a b c : Element} {A : Nat → Prop}

/-! ### Elements of different sorts -/

/-- Against an element that describes no known indexes, all known sets of indexes but the wildcard are alike. -/
private theorem contains_of_indexSet?_eq_none (ha : a.indexSet? = some A) (hc : c.indexSet? = none) :
    a.contains c =
      if c.kind ∈ [Kind.slice, .expression] then if a = anyIndex then .holds else .unknown else .fails := by
  obtain ⟨i, rfl, -⟩ | ⟨rfl, -⟩ | ⟨is, rfl, -⟩ | ⟨s, r, rfl, hr, -⟩ := indexSet?_cases ha
  all_goals
    cases c with
    | slice t =>
      have ht : t.range = none := Option.map_eq_none_iff.1 hc
      simp [contains, kind, Slice.allIndexes, Slice.containsSlice_eq_unknown, *]
    | index j => cases hc
    | anyIndex => cases hc
    | indexes js => cases hc
    | _ => rfl

/-- Against an element that describes no names, all sets of names but the wildcard are alike. -/
private theorem contains_of_nameSet?_eq_none {A : String → Prop} (ha : a.nameSet? = some A)
    (hc : c.nameSet? = none) : a.contains c = if a = anyProperty ∧ c.kind = .filter then .holds else .fails := by
  obtain ⟨name, rfl, -⟩ | ⟨rfl, -⟩ | ⟨names, rfl, -⟩ := nameSet?_cases ha
  all_goals
    cases c with
    | property name => cases hc
    | anyProperty => cases hc
    | properties names => cases hc
    | _ => rfl

private theorem contains_eq_fails_of_indexSet? (ha : a.kind ∈ [Kind.root, .property, .anyProperty, .properties])
    (hc : c.indexSet? = some A) : a.contains c = .fails := by
  obtain ⟨i, rfl, -⟩ | ⟨rfl, -⟩ | ⟨is, rfl, -⟩ | ⟨t, r, rfl, -, -⟩ := indexSet?_cases hc
  all_goals cases a <;> first | rfl | simp [kind] at ha

private theorem contains_eq_fails_of_nameSet? {A : String → Prop} (had : a.isDescent = false)
    (ha : a.nameSet? = none) (hc : c.nameSet? = some A) : a.contains c = .fails := by
  obtain ⟨name, rfl, -⟩ | ⟨rfl, -⟩ | ⟨names, rfl, -⟩ := nameSet?_cases hc
  all_goals
    cases a with
    | descent inner => cases had
    | property name => cases ha
    | anyProperty => cases ha
    | properties names => cases ha
    | _ => rfl

private theorem normalForm_eq_anyProperty {A : String → Prop} (ha : a.nameSet? = some A) :
    a.normalForm = anyProperty ↔ a = anyProperty := by
  obtain ⟨name, rfl, -⟩ | ⟨rfl, -⟩ | ⟨names, rfl, -⟩ := nameSet?_cases ha
  · exact Iff.rfl
  · exact Iff.rfl
  · rw [normalForm]
    split <;> simp

/-- An expression describes a single index, so that sets that are no singletons are not contained. -/
private theorem expression_contains (text : String) (hc : c.indexSet? = some A) :
    ((expression text).contains c = .unknown ∧ ∃ i, ∀ j, A j ↔ j = i) ∨
      ((expression text).contains c = .fails ∧ ¬∃ i, ∀ j, A j ↔ j = i) := by
  obtain ⟨i, rfl, rfl⟩ | ⟨rfl, rfl⟩ | ⟨is, rfl, rfl⟩ | ⟨s, r, rfl, hr, rfl⟩ := indexSet?_cases hc
  · exact .inl ⟨rfl, i, fun j => Iff.rfl⟩
  · refine .inr ⟨rfl, ?_⟩
    rintro ⟨i, hi⟩
    have := (hi (i + 1)).1 trivial
    omega
  · rw [contains]
    by_cases hs : is.size = 1
    · obtain ⟨i, hi⟩ := List.length_eq_one_iff.1 hs
      rw [if_pos hs, hi]
      exact .inl ⟨rfl, i, fun j => List.mem_singleton⟩
    · rw [if_neg hs]
      refine .inr ⟨rfl, ?_⟩
      rintro ⟨i, hi⟩
      refine hs ?_
      have honly := (SortedSet.only?_eq_some_iff_forall (List.ne_nil_of_mem ((hi i).2 rfl))).2 fun j hj => (hi j).1 hj
      rw [SortedSet.size, SortedSet.only?_eq_some_iff.1 honly]
      rfl
  · simp only [contains, hr]
    by_cases hn : r.count = some 1
    · rw [if_pos hn]
      exact .inl ⟨rfl, IndexRange.count_eq_one_iff.1 hn⟩
    · rw [if_neg hn]
      exact .inr ⟨rfl, fun h => hn (IndexRange.count_eq_one_iff.2 h)⟩

/-! ### Definite verdicts -/

/-- A definite verdict on a pattern is that on its normal form. -/
theorem contains_normalForm_left (had : a.isDescent = false) (hmax : a.ListsNoMax) (hcv : c.Valid)
    (hcr : c.InReach) (h : a.contains c ≠ .unknown) : a.normalForm.contains c = a.contains c := by
  cases hA : a.indexSet? with
  | some A =>
    obtain ⟨A', hA', hiff⟩ := indexSet?_normalForm hA hmax
    cases hC : c.indexSet? with
    | some C =>
      refine (contains_decides hA' hC hcv hcr).unique ((contains_decides hA hC hcv hcr).congr ?_)
      exact forall_congr' fun i => imp_congr_right fun _ => (hiff i).symm
    | none =>
      -- the sets differ in being the wildcard only, which is its own normal form
      rw [contains_of_indexSet?_eq_none hA hC] at h
      rw [contains_of_indexSet?_eq_none hA hC, contains_of_indexSet?_eq_none hA' hC]
      split
      · rename_i hk
        by_cases ha : a = anyIndex
        · rw [ha]; rfl
        · simp [hk, ha] at h
      · rfl
  | none =>
    cases hN : a.nameSet? with
    | some N =>
      obtain ⟨N', hN', hiff⟩ := nameSet?_normalForm hN
      cases hC : c.nameSet? with
      | some C =>
        refine (contains_decides_names hN' hC hcv).unique ((contains_decides_names hN hC hcv).congr ?_)
        exact forall_congr' fun i => imp_congr_right fun _ => (hiff i).symm
      | none =>
        rw [contains_of_nameSet?_eq_none hN hC, contains_of_nameSet?_eq_none hN' hC]
        simp only [normalForm_eq_anyProperty hN]
    | none => exact contains_congr_left (normalForm_beq had hA hN) c

/-- Of the elements that describe no known indexes, a slice says something about the wildcard only, an expression
about sets that are no singletons, and a filter about nothing; the others contain no index. -/
private theorem contains_normalForm_indexes {A' : Nat → Prop} (had : a.isDescent = false) (ha : a.indexSet? = none)
    (hc : c.indexSet? = some A) (hc' : c.normalForm.indexSet? = some A') (hiff : ∀ i, A' i ↔ A i)
    (h : a.contains c ≠ .unknown) : a.contains c.normalForm = a.contains c := by
  cases a with
  | slice s =>
    have hs : s.range = none := Option.map_eq_none_iff.1 ha
    obtain ⟨i, rfl, -⟩ | ⟨rfl, -⟩ | ⟨is, rfl, -⟩ | ⟨t, r, rfl, hr, -⟩ := indexSet?_cases hc
    · simp [contains, Slice.containsIndex, hs, Verdict.ofOption] at h
    · rfl
    · simp [contains, Slice.containsIndexes, hs] at h
    · simp [contains, Slice.containsSlice_eq_unknown, hs, hr] at h
  | expression text =>
    -- the normal form is a singleton when the candidate is one
    obtain ⟨hu, -⟩ | ⟨hf, hn⟩ := expression_contains text hc
    · exact absurd hu h
    · obtain ⟨-, i, hi⟩ | ⟨hf', -⟩ := expression_contains text hc'
      · exact absurd ⟨i, fun j => (hiff j).symm.trans (hi j)⟩ hn
      · rw [hf, hf']
  | filter text =>
    obtain ⟨i, rfl, -⟩ | ⟨rfl, -⟩ | ⟨is, rfl, -⟩ | ⟨t, r, rfl, -, -⟩ := indexSet?_cases hc
    all_goals exact absurd rfl h
  | descent inner => cases had
  | index i => cases ha
  | anyIndex => cases ha
  | indexes is => cases ha
  | _ => rw [contains_eq_fails_of_indexSet? (by simp [kind]) hc, contains_eq_fails_of_indexSet? (by simp [kind]) hc']

/-- A definite verdict on a candidate is that on its normal form. -/
theorem contains_normalForm_right (had : a.isDescent = false) (hcd : c.isDescent = false) (hmax : c.ListsNoMax)
    (hcv : c.Valid) (hcr : c.InReach) (h : a.contains c ≠ .unknown) :
    a.contains c.normalForm = a.contains c := by
  cases hC : c.indexSet? with
  | some C =>
    obtain ⟨C', hC', hiff⟩ := indexSet?_normalForm hC hmax
    cases hA : a.indexSet? with
    | some A =>
      refine (contains_decides hA hC' hcv.normalForm hcr.normalForm).unique
        ((contains_decides hA hC hcv hcr).congr ?_)
      exact forall_congr' fun i => imp_congr_left (hiff i).symm
    | none => exact contains_normalForm_indexes had hA hC hC' hiff h
  | none =>
    cases hN : c.nameSet? with
    | some N =>
      obtain ⟨N', hN', hiff⟩ := nameSet?_normalForm hN
      cases hA : a.nameSet? with
      | some A =>
        refine (contains_decides_names hA hN' hcv.normalForm).unique ((contains_decides_names hA hN hcv).congr ?_)
        exact forall_congr' fun i => imp_congr_left (hiff i).symm
      | none =>
        rw [contains_eq_fails_of_nameSet? had hA hN, contains_eq_fails_of_nameSet? had hA hN']
    | none => exact contains_congr_right (normalForm_beq hcd hC hN) a

end Element

end PathContainment
