import PathContainment.Proofs.IndexRange.Members

/-!
# Containment of ranges

`r.containsRange s` looks at a few numbers only, the least and the greatest index of `s`, its first one and the two
steps. It holds exactly when every index of `s` is one of `r` (`containsRange_iff`). The extremes of a range with
finitely many indexes are its first index and its last one, in the order that the direction of the walk says.
-/

namespace PathContainment.IndexRange

variable {r s : IndexRange}

/-! ### Extremes -/

/-- The range has `m + 1` indexes, so that the walk ends after `m` steps. -/
private theorem steps_of_count {right : Int} {m : Nat} (hr : s.right = some right) (hm : s.count = some (m + 1)) :
    (right - s.left) / (s.step.natAbs : Int) = m := by
  have hs := s.step_ne_zero
  simp only [count, hr, Option.map_some, Option.some.injEq] at hm
  split at hm
  · omega
  · have : 0 ≤ (right - s.left) / (s.step.natAbs : Int) := Int.ediv_nonneg (by omega) (by omega)
    omega

private theorem lowest_eq {m : Nat} (hm : s.count = some (m + 1)) :
    s.lowest = if 0 < s.step then s.first else s.first + m * s.step := by
  obtain ⟨right, hr⟩ := exists_right_of_count hm
  have hsteps := steps_of_count hr hm
  simp only [lowest, hr]
  split
  · rename_i hs
    rw [first_of_pos hs]
  · rename_i hs
    have hd : (s.step.natAbs : Int) = -s.step := by omega
    rw [first_of_neg hs hr, hsteps, hd, Int.mul_neg]
    omega

private theorem highest_eq {m : Nat} (hm : s.count = some (m + 1)) :
    s.highest = some (if 0 < s.step then s.first + m * s.step else s.first) := by
  obtain ⟨right, hr⟩ := exists_right_of_count hm
  have hsteps := steps_of_count hr hm
  simp only [highest, hr, Option.map_some]
  split
  · rename_i hs
    have hd : (s.step.natAbs : Int) = s.step := by omega
    rw [hd] at hsteps
    rw [first_of_pos hs, hsteps]
  · rename_i hs
    rw [first_of_neg hs hr]

private theorem reaches_some_iff {high : Int} :
    r.reaches (some high) = true ↔ ∀ right, r.right = some right → high ≤ right := by
  unfold reaches
  cases r.right <;> simp

/-! ### Ranges of at least two indexes -/

/-- What a walk meets lies in a residue class as soon as the first index does and the step allows it. -/
private theorem dvd_walk (hstep : r.step ∣ s.step) (hfirst : r.step ∣ s.first - r.first) (k : Nat) :
    r.step ∣ s.first + k * s.step - r.first := by
  have hk : r.step ∣ (k : Int) * s.step := Int.dvd_mul_of_dvd_right hstep
  have := Int.dvd_add hfirst hk
  rwa [show s.first - r.first + k * s.step = s.first + k * s.step - r.first by omega] at this

/-- Two neighbours of the walk in a residue class determine both conditions on it. -/
private theorem dvd_of_walk (h0 : r.step ∣ s.first + (0 : Nat) * s.step - r.first)
    (h1 : r.step ∣ s.first + (1 : Nat) * s.step - r.first) : r.step ∣ s.step ∧ r.step ∣ s.first - r.first := by
  have hfirst : r.step ∣ s.first - r.first := by simpa using h0
  refine ⟨?_, hfirst⟩
  have := Int.dvd_sub h1 hfirst
  rwa [show s.first + (1 : Nat) * s.step - r.first - (s.first - r.first) = s.step by
    rw [Int.natCast_one, Int.one_mul]; omega] at this

/-- The steps in between lie between the extremes. -/
private theorem walk_between {m k : Nat} (hk : k ≤ m) :
    (if 0 < s.step then s.first else s.first + m * s.step) ≤ s.first + k * s.step ∧
    s.first + k * s.step ≤ (if 0 < s.step then s.first + m * s.step else s.first) := by
  have hkm : (k : Int) ≤ m := by omega
  split
  · have h0 : 0 ≤ k * s.step := Int.mul_nonneg (by omega) (by omega)
    have h1 : k * s.step ≤ m * s.step := Int.mul_le_mul_of_nonneg_right hkm (by omega)
    omega
  · have h0 : k * s.step ≤ 0 := Int.mul_nonpos_of_nonneg_of_nonpos (by omega) (by omega)
    have h1 : m * s.step ≤ k * s.step := Int.mul_le_mul_of_nonpos_right hkm (by omega)
    omega

private theorem containsRange_iff_of_finite {m : Nat} (hm : s.count = some (m + 2)) :
    r.containsRange s = true ↔ ∀ i, s.Mem i → r.Mem i := by
  have hform : r.containsRange s = true ↔
      (((r.step ∣ s.step) ∧ r.left ≤ s.lowest) ∧ r.reaches s.highest = true) ∧ r.step ∣ s.first - r.first := by
    simp only [containsRange, hm, Bool.and_eq_true, decide_eq_true_eq]
  rw [hform, lowest_eq hm, highest_eq hm, reaches_some_iff]
  constructor
  · rintro ⟨⟨⟨hstep, hlow⟩, hhigh⟩, hfirst⟩ i hi
    obtain ⟨k, hk, he⟩ := (mem_iff_of_count_eq_some hm).1 hi
    have hb := walk_between (s := s) (show k ≤ m + 1 by omega)
    refine ⟨inWindow_iff.2 ⟨by omega, fun right hr => ?_⟩, ?_⟩
    · have := hhigh right hr
      omega
    · rw [he]; exact dvd_walk hstep hfirst k
  · intro h
    -- the two first indexes determine the residue class, the two extremes the window
    have hmem : ∀ k : Nat, k < m + 2 → ∃ i : Nat, (i : Int) = s.first + k * s.step ∧ r.Mem i := by
      intro k hk
      obtain ⟨i, hi, he⟩ := exists_mem_of_lt_count hm hk
      exact ⟨i, he, h i hi⟩
    obtain ⟨i, hi, -, hdi⟩ := hmem 0 (by omega)
    obtain ⟨j, hj, -, hdj⟩ := hmem 1 (by omega)
    rw [hi] at hdi
    rw [hj] at hdj
    have hdvd := dvd_of_walk hdi hdj
    obtain ⟨a, ha, hwa, -⟩ := hmem 0 (by omega)
    obtain ⟨b, hb, hwb, -⟩ := hmem (m + 1) (by omega)
    have hwa := inWindow_iff.1 hwa
    have hwb := inWindow_iff.1 hwb
    rw [Int.natCast_zero, Int.zero_mul] at ha
    refine ⟨⟨⟨hdvd.1, ?_⟩, fun right hr => ?_⟩, hdvd.2⟩
    · split <;> omega
    · have := hwa.2 right hr
      have := hwb.2 right hr
      split <;> omega

private theorem containsRange_iff_of_infinite (hn : s.count = none) :
    r.containsRange s = true ↔ ∀ i, s.Mem i → r.Mem i := by
  have hr := count_eq_none_iff.1 hn
  have hs := s.ascending_of_open hr
  have hform : r.containsRange s = true ↔
      (((r.step ∣ s.step) ∧ (r.left : Int) ≤ s.left) ∧ r.right = none) ∧ r.step ∣ s.first - r.first := by
    simp only [containsRange, hn, lowest, highest, hr, Option.map_none, Bool.and_eq_true, decide_eq_true_eq]
    unfold reaches
    cases r.right <;> simp
  rw [hform]
  constructor
  · rintro ⟨⟨⟨hstep, hleft⟩, hright⟩, hfirst⟩ i hi
    obtain ⟨k, he⟩ := (mem_iff_of_count_eq_none hn).1 hi
    refine ⟨inWindow_iff.2 ⟨?_, fun right h => by rw [hright] at h; cases h⟩, ?_⟩
    · have := (inWindow_iff.1 hi.1).1
      omega
    · rw [he]; exact dvd_walk hstep hfirst k
  · intro h
    have hmem : ∀ k : Nat, ∃ i : Nat, (i : Int) = s.first + k * s.step ∧ r.Mem i := by
      intro k
      have h0 : 0 ≤ k * s.step := Int.mul_nonneg (by omega) (by omega)
      have he : ((s.first + k * s.step).toNat : Int) = s.first + k * s.step :=
        Int.toNat_of_nonneg (by rw [first_of_pos hs]; omega)
      exact ⟨_, he, h _ ((mem_iff_of_count_eq_none hn).2 ⟨k, he⟩)⟩
    obtain ⟨i, hi, hwi, hdi⟩ := hmem 0
    obtain ⟨j, hj, -, hdj⟩ := hmem 1
    have hwi := inWindow_iff.1 hwi
    rw [hi] at hdi
    rw [hj] at hdj
    have hdvd := dvd_of_walk hdi hdj
    rw [Int.natCast_zero, Int.zero_mul, first_of_pos hs] at hi
    refine ⟨⟨⟨hdvd.1, by omega⟩, ?_⟩, hdvd.2⟩
    cases hright : r.right with
    | none => rfl
    | some right =>
      -- some index of `s` lies above every bound
      obtain ⟨a, ha, hma⟩ := exists_mem_gt hn right.toNat
      have := (inWindow_iff.1 (h a hma).1).2 right hright
      omega

/-! ### All ranges -/

/-- The containment of ranges is that of their sets of indexes. The bound says that the first index of the contained
range is an index that an array can have. -/
theorem containsRange_iff (hs : s.first ≤ maxIndex) : r.containsRange s = true ↔ ∀ i, s.Mem i → r.Mem i := by
  rcases hn : s.count with _ | _ | _ | m
  · exact containsRange_iff_of_infinite hn
  · have hform : r.containsRange s = true := by simp only [containsRange, hn]
    rw [hform]
    refine iff_of_true rfl fun i hi => ?_
    obtain ⟨k, hk, -⟩ := (mem_iff_of_count_eq_some hn).1 hi
    exact absurd hk (Nat.not_lt_zero k)
  · have hform : r.containsRange s = r.containsIndex s.first.toNat := by simp only [containsRange, hn]
    rw [hform, containsIndex_iff]
    constructor
    · rintro ⟨-, hfirst⟩ i hi
      rw [(mem_iff_of_count_eq_one hn).1 hi]
      exact hfirst
    · intro h
      exact ⟨by omega, h _ ((mem_iff_of_count_eq_one hn).2 rfl)⟩
  · exact containsRange_iff_of_finite hn

end PathContainment.IndexRange
