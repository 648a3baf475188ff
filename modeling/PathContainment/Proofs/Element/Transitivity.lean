import PathContainment.Proofs.Element.IndexSet
import PathContainment.Proofs.Element.NameSet
import PathContainment.Sequence.Containment

/-!
# Transitivity of the containment of elements

The containment holds in five ways only (`contains_eq_holds_cases`): between sets of indexes, between sets of names,
between equal opaque elements, and of an opaque element in one of the two wildcards. Composing them two by two shows
that what holds for `a, b` and for `b, c` holds for `a, c` (`contains_trans`), with one exception: a slice that covers
all indexes contains the wildcard `[*]`, and the wildcard contains expressions and slices without a known range, about
which the slice itself cannot tell.
-/

namespace PathContainment.Element

/-- The array indexes that the element describes, if there are any, can be told from the element. -/
def IndexesKnown : Element → Prop
  | slice s => s.range ≠ none
  | expression _ => False
  | descent inner => inner.IndexesKnown
  | _ => True

variable {a b c : Element} {A : Nat → Prop}

private theorem nameSet?_eq_none (h : a.indexSet? = some A) : a.nameSet? = none := by
  obtain ⟨i, rfl, -⟩ | ⟨rfl, -⟩ | ⟨is, rfl, -⟩ | ⟨s, r, rfl, -⟩ := indexSet?_cases h <;> rfl

private theorem exists_indexSet? {s : Slice} (h : s.range ≠ none) : ∃ B, (slice s).indexSet? = some B := by
  obtain ⟨r, hr⟩ := Option.ne_none_iff_exists'.1 h
  exact ⟨r.Mem, by rw [indexSet?, hr]; rfl⟩

private theorem indexSet?_eq_none {s : Slice} (h : s.range = none) : (slice s).indexSet? = none := by
  rw [indexSet?, h]; rfl

/-- Why the containment in an element without recursive descent holds. -/
theorem contains_eq_holds_cases (ha : a.isDescent = false) (h : a.contains b = .holds) :
    (∃ A B, a.indexSet? = some A ∧ b.indexSet? = some B) ∨
    (∃ A B, a.nameSet? = some A ∧ b.nameSet? = some B) ∨
    ((a == b) = true ∧ b.indexSet? = none ∧ b.nameSet? = none) ∨
    (a = anyIndex ∧ b.kind ∈ [Kind.slice, .expression] ∧ b.indexSet? = none) ∨
    (a = anyProperty ∧ b.kind = .filter) := by
  cases a with
  | root =>
    cases b with
    | root => exact .inr (.inr (.inl ⟨rfl, rfl, rfl⟩))
    | _ => cases h
  | property name =>
    cases b with
    | property other => exact .inr (.inl ⟨_, _, rfl, rfl⟩)
    | properties names => exact .inr (.inl ⟨_, _, rfl, rfl⟩)
    | _ => cases h
  | anyProperty =>
    cases b with
    | property name => exact .inr (.inl ⟨_, _, rfl, rfl⟩)
    | anyProperty => exact .inr (.inl ⟨_, _, rfl, rfl⟩)
    | properties names => exact .inr (.inl ⟨_, _, rfl, rfl⟩)
    | filter text => exact .inr (.inr (.inr (.inr ⟨rfl, rfl⟩)))
    | _ => cases h
  | properties names =>
    cases b with
    | property name => exact .inr (.inl ⟨_, _, rfl, rfl⟩)
    | properties others => exact .inr (.inl ⟨_, _, rfl, rfl⟩)
    | _ => cases h
  | index i =>
    cases b with
    | index j => exact .inl ⟨_, _, rfl, rfl⟩
    | indexes js => exact .inl ⟨_, _, rfl, rfl⟩
    | slice t =>
      have ht : t.range ≠ none := fun hn => by simp [contains, Slice.allIndexes, hn] at h
      obtain ⟨B, hB⟩ := exists_indexSet? ht
      exact .inl ⟨_, B, rfl, hB⟩
    | _ => cases h
  | anyIndex =>
    cases b with
    | index j => exact .inl ⟨_, _, rfl, rfl⟩
    | anyIndex => exact .inl ⟨_, _, rfl, rfl⟩
    | indexes js => exact .inl ⟨_, _, rfl, rfl⟩
    | slice t =>
      by_cases ht : t.range = none
      · exact .inr (.inr (.inr (.inl ⟨rfl, by simp [kind], indexSet?_eq_none ht⟩)))
      · obtain ⟨B, hB⟩ := exists_indexSet? ht
        exact .inl ⟨_, B, rfl, hB⟩
    | expression text => exact .inr (.inr (.inr (.inl ⟨rfl, by simp [kind], rfl⟩)))
    | _ => cases h
  | indexes is =>
    cases b with
    | index j => exact .inl ⟨_, _, rfl, rfl⟩
    | indexes js => exact .inl ⟨_, _, rfl, rfl⟩
    | slice t =>
      have ht : t.range ≠ none := fun hn => by simp [contains, Slice.allIndexes, hn] at h
      obtain ⟨B, hB⟩ := exists_indexSet? ht
      exact .inl ⟨_, B, rfl, hB⟩
    | _ => cases h
  | slice s =>
    cases b with
    | index j =>
      have hs : s.range ≠ none := fun hn => by simp [contains, Slice.containsIndex, hn, Verdict.ofOption] at h
      obtain ⟨A, hA⟩ := exists_indexSet? hs
      exact .inl ⟨A, _, hA, rfl⟩
    | anyIndex =>
      have hs : s.range ≠ none := fun hn => by simp [contains, Slice.isEvery, hn] at h
      obtain ⟨A, hA⟩ := exists_indexSet? hs
      exact .inl ⟨A, _, hA, rfl⟩
    | indexes js =>
      have hs : s.range ≠ none := fun hn => by simp [contains, Slice.containsIndexes, hn] at h
      obtain ⟨A, hA⟩ := exists_indexSet? hs
      exact .inl ⟨A, _, hA, rfl⟩
    | slice t =>
      rw [contains, Slice.containsSlice] at h
      by_cases ht : t.range = none
      · by_cases hst : (s == t) = true
        · exact .inr (.inr (.inl ⟨hst, indexSet?_eq_none ht, rfl⟩))
        · rw [if_neg hst, ht] at h
          cases hs : s.range <;> rw [hs] at h <;> cases h
      · obtain ⟨B, hB⟩ := exists_indexSet? ht
        by_cases hs : s.range = none
        · by_cases hst : (s == t) = true
          · rw [Slice.range_congr hst] at hs
            exact absurd hs ht
          · rw [if_neg hst, hs] at h
            cases h
        · obtain ⟨A, hA⟩ := exists_indexSet? hs
          exact .inl ⟨A, B, hA, hB⟩
    | _ => cases h
  | expression text =>
    cases b with
    | expression other =>
      rw [contains, Verdict.ofBool_eq_holds, decide_eq_true_eq] at h
      exact .inr (.inr (.inl ⟨by rw [h]; exact BEq.rfl, rfl, rfl⟩))
    | indexes js => rw [contains] at h; split at h <;> cases h
    | slice t =>
      rw [contains] at h
      split at h
      · cases h
      · split at h <;> cases h
    | _ => cases h
  | filter text =>
    cases b with
    | filter other =>
      rw [contains] at h
      split at h
      · rename_i ht
        exact .inr (.inr (.inl ⟨by rw [ht]; exact BEq.rfl, rfl, rfl⟩))
      · cases h
    | _ => cases h
  | descent inner => cases ha

/-! ### Composition -/

/-- Only a slice of all indexes and the wildcard itself contain the wildcard. -/
private theorem contains_opaque_index (ha : a.isDescent = false) (h : a.contains anyIndex = .holds)
    (hc : c.kind ∈ [Kind.slice, .expression]) (hcs : c.indexSet? = none) :
    a.contains c = .holds ∨ (a.contains c = .unknown ∧ ¬c.IndexesKnown) := by
  have hknown : ¬c.IndexesKnown := by
    cases c with
    | slice t =>
      intro ht
      obtain ⟨B, hB⟩ := exists_indexSet? ht
      rw [hcs] at hB; cases hB
    | expression text => exact fun h => h
    | _ => simp [kind] at hc
  cases a with
  | anyIndex =>
    cases c with
    | slice t => exact .inl rfl
    | expression text => exact .inl rfl
    | _ => simp [kind] at hc
  | slice s =>
    cases c with
    | slice t =>
      have ht : t.range = none := by
        cases ht : t.range with
        | none => rfl
        | some r => exact absurd (by rw [IndexesKnown, ht]; simp) hknown
      rw [contains, Slice.containsSlice]
      split
      · exact .inl rfl
      · rw [ht]
        exact .inr ⟨by cases s.range <;> rfl, hknown⟩
    | expression text => exact .inr ⟨rfl, hknown⟩
    | _ => simp [kind] at hc
  | descent inner => cases ha
  | _ => cases h

/-- The containment of elements without recursive descent is transitive, up to opaque elements at the end. -/
theorem contains_trans (ha : a.isDescent = false) (hb : b.isDescent = false) (hbv : b.Valid) (hbr : b.InReach)
    (hcv : c.Valid) (hcr : c.InReach) (hab : a.contains b = .holds) (hbc : b.contains c = .holds) :
    a.contains c = .holds ∨ (a.contains c = .unknown ∧ ¬c.IndexesKnown) := by
  rcases contains_eq_holds_cases hb hbc with
    ⟨B, C, hB, hC⟩ | ⟨B, C, hB, hC⟩ | ⟨heq, -⟩ | ⟨rfl, hck, hcs⟩ | ⟨rfl, hck⟩
  · -- sets of indexes: what holds of `a` and `b` must be of this sort as well
    have hsub := (contains_decides hB hC hcv hcr).1.1 hbc
    obtain ⟨A, hA⟩ : ∃ A, a.indexSet? = some A := by
      rcases contains_eq_holds_cases ha hab with ⟨A, -, hA, -⟩ | ⟨-, B', -, hB'⟩ | ⟨-, hn, -⟩ | ⟨-, -, hn⟩ | ⟨-, hk⟩
      · exact ⟨A, hA⟩
      · rw [nameSet?_eq_none hB] at hB'; cases hB'
      · rw [hB] at hn; cases hn
      · rw [hB] at hn; cases hn
      · obtain ⟨i, rfl, -⟩ | ⟨rfl, -⟩ | ⟨is, rfl, -⟩ | ⟨s, r, rfl, -⟩ := indexSet?_cases hB <;> cases hk
    have hsup := (contains_decides hA hB hbv hbr).1.1 hab
    exact .inl ((contains_decides hA hC hcv hcr).1.2 fun i hi => hsup i (hsub i hi))
  · -- sets of names
    have hsub := (contains_decides_names hB hC hcv).1.1 hbc
    obtain ⟨A, hA⟩ : ∃ A, a.nameSet? = some A := by
      rcases contains_eq_holds_cases ha hab with ⟨-, B', -, hB'⟩ | ⟨A, -, hA, -⟩ | ⟨-, -, hn⟩ | ⟨-, hk, -⟩ | ⟨-, hk⟩
      · rw [nameSet?_eq_none hB'] at hB; cases hB
      · exact ⟨A, hA⟩
      · rw [hB] at hn; cases hn
      · obtain ⟨n, rfl, -⟩ | ⟨rfl, -⟩ | ⟨ns, rfl, -⟩ := nameSet?_cases hB <;> simp [kind] at hk
      · obtain ⟨n, rfl, -⟩ | ⟨rfl, -⟩ | ⟨ns, rfl, -⟩ := nameSet?_cases hB <;> cases hk
    have hsup := (contains_decides_names hA hB hbv).1.1 hab
    exact .inl ((contains_decides_names hA hC hcv).1.2 fun n hn => hsup n (hsub n hn))
  · left
    rw [← contains_congr_right heq]
    exact hab
  · exact contains_opaque_index ha hab hck hcs
  · -- only the wildcard itself contains all names
    cases c with
    | filter text =>
      cases a with
      | anyProperty => exact .inl rfl
      | descent inner => cases ha
      | _ => cases hab
    | _ => cases hck

/-- The exception: `[0:]` contains `[*]`, which contains an expression, about which the slice cannot tell. -/
example :
    let every : Element := slice { start := some 0, stop := none, step := 1, step_ne_zero := by decide }
    every.contains anyIndex = .holds ∧ anyIndex.contains (expression "@.length-1") = .holds ∧
      every.contains (expression "@.length-1") = .unknown := by
  decide

end PathContainment.Element
