import PathContainment.Slice

/-!
# Slices and their ranges

The equality of slices is that of their canonical forms, in which the default start is written out; so it is an
equivalence, and equal slices have the same range (`range_congr`). The range of a slice stays below the largest index
(`first_le_of_range`), since its bounds are 64-bit integers.
-/

namespace PathContainment

namespace Slice

/-- The slice with the default start written out. -/
def canonical (s : Slice) : Slice := { s with start := s.effectiveStart }

variable {s t : Slice}

theorem beq_iff : (s == t) = true ↔ s.canonical = t.canonical := by
  show s.same t = true ↔ _
  simp only [same, canonical, Bool.and_eq_true, decide_eq_true_eq, Slice.mk.injEq, and_assoc]

instance : EquivBEq Slice where
  rfl := beq_iff.2 rfl
  symm h := beq_iff.2 (beq_iff.1 h).symm
  trans h h' := beq_iff.2 ((beq_iff.1 h).trans (beq_iff.1 h'))

theorem canonical_beq (s : Slice) : (s.canonical == s) = true := by
  rw [beq_iff]
  unfold canonical effectiveStart
  by_cases h : 0 < s.step
  · simp only [h, ↓reduceIte, Option.getD_some]
  · simp only [h, ↓reduceIte]

end Slice

namespace IndexRange

/-- The default start of an ascending range is `0`. -/
theorem ofBounds_getD_start {step : Int64} (h : 0 < step) (start stop : Option Int64) :
    ofBounds (some (start.getD 0)) stop step = ofBounds start stop step := by
  cases start with
  | some first => rfl
  | none =>
    have hup : 0 < step.toInt := Int64.lt_iff_toInt_lt.1 h
    have hneg : negativeBound? (some 0) stop = negativeBound? none stop := rfl
    simp only [ofBounds, Option.getD_none, Option.getD_some, hneg, hup, ↓reduceDIte]

private theorem descending_cases {start : Option Int64} {left : Nat} {step : Int64} {hstep : step ≠ 0}
    {r : IndexRange} (h : descending start left step hstep = .ok r) :
    r.left = left ∧ ((∃ b, start = some b ∧ r.right = some b.toInt ∧ r.step = step.toInt) ∨
      (start = none ∧ step = -1 ∧ r.right = none ∧ r.step = 1)) := by
  cases start with
  | some b =>
    cases h
    exact ⟨rfl, .inl ⟨b, rfl, rfl, rfl⟩⟩
  | none =>
    simp only [descending] at h
    split at h
    · rename_i hone
      cases h
      exact ⟨rfl, .inr ⟨rfl, hone, rfl, rfl⟩⟩
    · cases h

theorem negativeBound?_eq_none_iff {start stop : Option Int64} :
    negativeBound? start stop = none ↔ (∀ b ∈ start, 0 ≤ b.toInt) ∧ ∀ b ∈ stop, 0 ≤ b.toInt := by
  rw [negativeBound?, Option.or_eq_none_iff, Option.filter_eq_none_iff, Option.filter_eq_none_iff]
  simp [Int64.lt_iff_toInt_lt]

/-- What a range is made of. Its bounds come from those of the slice, which are not negative: an ascending slice leaves
out its end, a descending one goes down to the index after its end, and `[:stop:-1]` goes up from there. -/
theorem ofBounds_cases {start stop : Option Int64} {step : Int64} {r : IndexRange}
    (h : ofBounds start stop step = .ok r) :
    ((∀ b ∈ start, 0 ≤ b.toInt) ∧ ∀ b ∈ stop, 0 ≤ b.toInt) ∧
    ((0 < step.toInt ∧ (r.left : Int) = (start.getD 0).toInt ∧ r.right = stop.map (·.toInt - 1) ∧
        r.step = step.toInt) ∨
      (step.toInt < 0 ∧ (r.left : Int) = (stop.map (·.toInt + 1)).getD 0 ∧ r.left ≤ maxIndex ∧
        ((∃ b, start = some b ∧ r.right = some b.toInt ∧ r.step = step.toInt) ∨
          (start = none ∧ step = -1 ∧ r.right = none ∧ r.step = 1)))) := by
  simp only [ofBounds] at h
  split at h
  · cases h
  rename_i hzero
  split at h
  · cases h
  split at h
  · cases h
  rename_i hneg
  have hbound := negativeBound?_eq_none_iff.1 hneg
  refine ⟨hbound, ?_⟩
  split at h
  · rename_i hup
    cases h
    left
    have hfirst : 0 ≤ (start.getD 0).toInt := by
      cases start with
      | none => decide
      | some b => exact hbound.1 b rfl
    exact ⟨hup, Int.toNat_of_nonneg hfirst, rfl, rfl⟩
  · rename_i hup
    right
    have hne : step.toInt ≠ 0 := fun h0 => hzero (Int64.toInt_inj.1 h0)
    refine ⟨by omega, ?_⟩
    split at h
    · obtain ⟨hleft, hrest⟩ := descending_cases h
      rw [hleft]
      exact ⟨rfl, Nat.zero_le _, hrest⟩
    · rename_i last
      split at h
      · cases h
      rename_i hlast
      obtain ⟨hleft, hrest⟩ := descending_cases h
      -- the index after the end is a 64-bit integer, since the end is not the largest one
      have hpos : 0 ≤ last.toInt := hbound.2 last rfl
      have hle := last.toInt_le
      have hmax : Int64.maxValue.toInt = 2 ^ 63 - 1 := by decide
      have hnotmax : last.toInt ≠ Int64.maxValue.toInt := fun he => hlast (Int64.toInt_inj.1 he)
      rw [hleft]
      refine ⟨Int.toNat_of_nonneg (by omega), ?_, hrest⟩
      simp only [maxIndex]; omega

/-- The window of a range with 64-bit bounds ends at the largest index. -/
theorem ofBounds_bounds {start stop : Option Int64} {step : Int64} {r : IndexRange}
    (h : ofBounds start stop step = .ok r) :
    r.left ≤ maxIndex ∧ ∀ right, r.right = some right → right ≤ maxIndex := by
  obtain ⟨-, ⟨-, hleft, hright, -⟩ | ⟨-, -, hleft, ⟨b, -, hright, -⟩ | ⟨-, -, hright, -⟩⟩⟩ := ofBounds_cases h
  · have := (start.getD 0).toInt_lt
    refine ⟨by simp only [maxIndex]; omega, fun right hr => ?_⟩
    rw [hright] at hr
    obtain ⟨last, -, rfl⟩ := Option.map_eq_some_iff.1 hr
    have := last.toInt_lt
    simp only [maxIndex]; omega
  · refine ⟨hleft, fun right hr => ?_⟩
    rw [hright] at hr
    cases hr
    have := b.toInt_lt
    simp only [maxIndex]; omega
  · refine ⟨hleft, fun right hr => ?_⟩
    rw [hright] at hr
    cases hr

/-- The walk through a range with 64-bit bounds begins at an index that an array can have. -/
theorem first_le_of_ofBounds {start stop : Option Int64} {step : Int64} {r : IndexRange}
    (h : ofBounds start stop step = .ok r) : r.first ≤ maxIndex := by
  have hb := ofBounds_bounds h
  unfold first
  split
  · omega
  · cases hr : r.right with
    | none => rw [Option.getD_none]; omega
    | some right => exact hb.2 right hr

end IndexRange

namespace Slice

variable {s t : Slice} {r : IndexRange}

theorem ofBounds_of_range (h : s.range = some r) : IndexRange.ofBounds s.start s.stop s.step = .ok r := by
  unfold range at h
  cases hb : IndexRange.ofBounds s.start s.stop s.step with
  | error fault => rw [hb] at h; cases h
  | ok r' => rw [hb] at h; cases h; rfl

theorem range_canonical (s : Slice) : s.canonical.range = s.range := by
  unfold range canonical effectiveStart
  split
  · rename_i h
    rw [IndexRange.ofBounds_getD_start h]
  · rfl

/-- Equal slices cover the same indexes. -/
theorem range_congr (h : (s == t) = true) : s.range = t.range := by
  rw [← range_canonical s, beq_iff.1 h, range_canonical t]

private theorem isLast_canonical (s : Slice) : s.canonical.isLast = s.isLast := by
  unfold isLast canonical effectiveStart
  by_cases hup : 0 < s.step
  · -- the default start is not the last item
    cases s.start with
    | none => simp [hup]
    | some b => simp [hup]
  · simp [hup]

/-- Equal slices cover the same number of indexes, as far as it is known. -/
theorem count_congr (h : (s == t) = true) : s.count = t.count := by
  have hlast : s.isLast = t.isLast := by rw [← isLast_canonical s, beq_iff.1 h, isLast_canonical t]
  rw [count, count, hlast, range_congr h]

/-- A slice with a range has as many indexes as its range: `[-1:]` has none. -/
theorem count_of_range (h : s.range = some r) : s.count = r.count := by
  have hlast : s.isLast = false := by
    rw [← Bool.not_eq_true]
    intro hlast
    simp only [isLast, Bool.and_eq_true, decide_eq_true_eq] at hlast
    have hstart := (IndexRange.ofBounds_cases (ofBounds_of_range h)).1.1 (-1) hlast.1.1
    exact absurd hstart (by decide)
  rw [count, hlast, if_neg Bool.false_ne_true, h, Option.bind_some]

theorem first_le_of_range (h : s.range = some r) : r.first ≤ maxIndex :=
  IndexRange.first_le_of_ofBounds (ofBounds_of_range h)

end Slice

end PathContainment
