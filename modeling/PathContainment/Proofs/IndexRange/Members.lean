import PathContainment.IndexRange

/-!
# The indexes of a range

`r.Mem i` says that `i` is an index of the range: it lies in the window, and its distance from the first index is a
multiple of the step. These are the indexes that the walk meets (`mem_iff_of_count_eq_some`,
`mem_iff_of_count_eq_none`), however far it goes; in contrast to `IndexRange.containsIndex` there is no largest index.
The functions on ranges are described by this one notion: `isEvery_iff`, `allFrom_iff`, `containsIndex_iff`.
-/

namespace PathContainment.IndexRange

/-- The index lies in the window and in the residue class of the walk. -/
def Mem (r : IndexRange) (i : Nat) : Prop := r.inWindow i = true ∧ r.step ∣ (i : Int) - r.first

instance (r : IndexRange) (i : Nat) : Decidable (r.Mem i) := inferInstanceAs (Decidable (_ ∧ _))

variable {r : IndexRange}

theorem inWindow_iff {i : Int} : r.inWindow i = true ↔ r.left ≤ i ∧ ∀ right, r.right = some right → i ≤ right := by
  unfold inWindow
  cases r.right <;> simp

theorem containsIndex_iff {i : Nat} : r.containsIndex i = true ↔ i ≤ maxIndex ∧ r.Mem i := by
  simp only [containsIndex, Mem, Bool.and_eq_true, decide_eq_true_eq, and_assoc]

/-! ### The walk meets exactly the indexes of the range -/

theorem first_of_pos (h : 0 < r.step) : r.first = r.left := by simp only [first, h, ↓reduceIte]

theorem first_of_neg {right : Int} (h : ¬0 < r.step) (hr : r.right = some right) : r.first = right := by
  simp only [first, h, ↓reduceIte, hr, Option.getD_some]

theorem exists_right_of_neg (h : ¬0 < r.step) : ∃ right, r.right = some right := by
  cases hr : r.right with
  | none => exact absurd (r.ascending_of_open hr) h
  | some right => exact ⟨right, rfl⟩

/-- The walk begins at the near end of the window, so that nothing of the window lies before its first index. -/
private theorem steps_nonneg {t : Int} (hw : r.inWindow (r.first + t * r.step) = true) : 0 ≤ t := by
  rcases Int.lt_or_le t 0 with hneg | ht
  · -- a step back from the near end leads out of the window
    have hw' := inWindow_iff.1 hw
    by_cases hs : 0 < r.step
    · have hf := first_of_pos hs
      have : t * r.step ≤ -1 * r.step := Int.mul_le_mul_of_nonneg_right (by omega) (by omega)
      omega
    · obtain ⟨right, hr⟩ := exists_right_of_neg hs
      have hf := first_of_neg hs hr
      have hle := hw'.2 right hr
      have hs0 := r.step_ne_zero
      have : -1 * r.step ≤ t * r.step := Int.mul_le_mul_of_nonpos_right (by omega) (by omega)
      omega
  · exact ht

/-- An index of the range is met after some number of steps. -/
theorem mem_iff_exists {i : Nat} :
    r.Mem i ↔ ∃ k : Nat, (i : Int) = r.first + k * r.step ∧ r.inWindow (r.first + k * r.step) = true := by
  constructor
  · rintro ⟨hw, t, ht⟩
    have hi : (i : Int) = r.first + t * r.step := by rw [Int.mul_comm]; omega
    have ht0 : 0 ≤ t := steps_nonneg (hi ▸ hw)
    refine ⟨t.toNat, ?_, ?_⟩
    · rw [Int.toNat_of_nonneg ht0]; exact hi
    · rw [Int.toNat_of_nonneg ht0, ← hi]; exact hw
  · rintro ⟨k, hi, hw⟩
    refine ⟨by rw [hi]; exact hw, ?_⟩
    rw [hi, show r.first + k * r.step - r.first = k * r.step by omega]
    exact Int.dvd_mul_left _ _

private theorem inWindow_walk_iff {right : Int} (hr : r.right = some right) (k : Nat) :
    r.inWindow (r.first + k * r.step) = true ↔ k * (r.step.natAbs : Int) ≤ right - r.left := by
  rw [inWindow_iff]
  by_cases hs : 0 < r.step
  · have hd : (r.step.natAbs : Int) = r.step := by omega
    have hk : 0 ≤ k * r.step := Int.mul_nonneg (by omega) (by omega)
    rw [first_of_pos hs, hd]
    constructor
    · intro h
      have := h.2 right hr
      omega
    · intro h
      refine ⟨by omega, fun right' hr' => ?_⟩
      rw [hr] at hr'
      cases hr'
      omega
  · have hd : (r.step.natAbs : Int) = -r.step := by omega
    have hk : k * r.step ≤ 0 := Int.mul_nonpos_of_nonneg_of_nonpos (by omega) (by omega)
    rw [first_of_neg hs hr, hd, Int.mul_neg]
    constructor
    · intro h
      omega
    · intro h
      refine ⟨by omega, fun right' hr' => ?_⟩
      rw [hr] at hr'
      cases hr'
      omega

theorem count_eq_none_iff : r.count = none ↔ r.right = none := by
  unfold count; exact Option.map_eq_none_iff

theorem exists_right_of_count {n : Nat} (hn : r.count = some n) : ∃ right, r.right = some right := by
  cases hr : r.right with
  | none => rw [count_eq_none_iff.2 hr] at hn; cases hn
  | some right => exact ⟨right, rfl⟩

private theorem lt_count_iff {right : Int} {n : Nat} (hr : r.right = some right) (hn : r.count = some n) (k : Nat) :
    k < n ↔ k * (r.step.natAbs : Int) ≤ right - r.left := by
  have hs := r.step_ne_zero
  have hd : 0 < (r.step.natAbs : Int) := by omega
  simp only [count, hr, Option.map_some, Option.some.injEq] at hn
  by_cases hlt : right < r.left
  · have : 0 ≤ k * (r.step.natAbs : Int) := Int.mul_nonneg (by omega) (by omega)
    simp only [hlt, ↓reduceIte] at hn
    omega
  · have hq : 0 ≤ (right - r.left) / (r.step.natAbs : Int) := Int.ediv_nonneg (by omega) (by omega)
    simp only [hlt, ↓reduceIte] at hn
    rw [← Int.le_ediv_iff_mul_le hd]
    omega

/-- The first `n` steps through a range with `n` indexes stay in the window, and no others. -/
theorem inWindow_iff_lt_count {n : Nat} (hn : r.count = some n) (k : Nat) :
    r.inWindow (r.first + k * r.step) = true ↔ k < n := by
  obtain ⟨right, hr⟩ := exists_right_of_count hn
  rw [inWindow_walk_iff hr, lt_count_iff hr hn]

/-- The indexes of a range with `n` indexes are those of its first `n` steps. -/
theorem mem_iff_of_count_eq_some {n : Nat} (hn : r.count = some n) {i : Nat} :
    r.Mem i ↔ ∃ k : Nat, k < n ∧ (i : Int) = r.first + k * r.step := by
  rw [mem_iff_exists]
  constructor
  · rintro ⟨k, hi, hw⟩
    exact ⟨k, (inWindow_iff_lt_count hn k).1 hw, hi⟩
  · rintro ⟨k, hk, hi⟩
    exact ⟨k, hi, (inWindow_iff_lt_count hn k).2 hk⟩

/-- The indexes of a range without end are all that its steps lead to. -/
theorem mem_iff_of_count_eq_none (hn : r.count = none) {i : Nat} :
    r.Mem i ↔ ∃ k : Nat, (i : Int) = r.first + k * r.step := by
  have hr := count_eq_none_iff.1 hn
  have hs := r.ascending_of_open hr
  rw [mem_iff_exists]
  constructor
  · rintro ⟨k, hi, -⟩
    exact ⟨k, hi⟩
  · rintro ⟨k, hi⟩
    refine ⟨k, hi, inWindow_iff.2 ⟨?_, fun right h => by rw [hr] at h; cases h⟩⟩
    have : 0 ≤ k * r.step := Int.mul_nonneg (by omega) (by omega)
    rw [first_of_pos hs]; omega

/-- Each of the first `n` steps leads to an index of a range with `n` indexes. -/
theorem exists_mem_of_lt_count {n k : Nat} (hn : r.count = some n) (hk : k < n) :
    ∃ i, r.Mem i ∧ (i : Int) = r.first + k * r.step := by
  have hw := (inWindow_iff_lt_count hn k).2 hk
  have hle := (inWindow_iff.1 hw).1
  have hi : ((r.first + k * r.step).toNat : Int) = r.first + k * r.step := Int.toNat_of_nonneg (by omega)
  exact ⟨_, (mem_iff_of_count_eq_some hn).2 ⟨k, hk, hi⟩, hi⟩

/-- A range without end has indexes above every number. -/
theorem exists_mem_gt (hn : r.count = none) (m : Nat) : ∃ i, m < i ∧ r.Mem i := by
  have hs := r.ascending_of_open (count_eq_none_iff.1 hn)
  have hk : ((m + 1 : Nat) : Int) * 1 ≤ (m + 1 : Nat) * r.step := Int.mul_le_mul_of_nonneg_left (by omega) (by omega)
  have hf := first_of_pos hs
  refine ⟨(r.first + (m + 1 : Nat) * r.step).toNat, by omega, ?_⟩
  exact (mem_iff_of_count_eq_none hn).2 ⟨m + 1, Int.toNat_of_nonneg (by omega)⟩

theorem mem_iff_of_count_eq_one (hn : r.count = some 1) {i : Nat} : r.Mem i ↔ i = r.first.toNat := by
  obtain ⟨j, -, hj⟩ := exists_mem_of_lt_count hn Nat.zero_lt_one
  rw [mem_iff_of_count_eq_some hn]
  constructor
  · rintro ⟨k, hk, hi⟩
    obtain rfl : k = 0 := by omega
    omega
  · rintro rfl
    exact ⟨0, Nat.zero_lt_one, by omega⟩

/-- A range has one index exactly when it is counted so. -/
theorem count_eq_one_iff : r.count = some 1 ↔ ∃ i, ∀ j, r.Mem j ↔ j = i := by
  constructor
  · intro hn
    exact ⟨_, fun j => mem_iff_of_count_eq_one hn⟩
  · rintro ⟨i, hi⟩
    have hmem := (hi i).2 rfl
    cases hn : r.count with
    | none =>
      obtain ⟨j, hj, hjmem⟩ := exists_mem_gt hn i
      have := (hi j).1 hjmem
      omega
    | some n =>
      obtain ⟨k, hk, -⟩ := (mem_iff_of_count_eq_some hn).1 hmem
      -- with two steps the walk would meet two different indexes
      have hn1 : ¬1 < n := by
        intro h1
        obtain ⟨j₀, hj₀, h₀⟩ := exists_mem_of_lt_count hn (show 0 < n by omega)
        obtain ⟨j₁, hj₁, h₁⟩ := exists_mem_of_lt_count hn h1
        have hstep := r.step_ne_zero
        rw [(hi j₀).1 hj₀] at h₀
        rw [(hi j₁).1 hj₁] at h₁
        omega
      congr 1
      omega

theorem isEvery_iff_parts : r.isEvery = true ↔ r.left = 0 ∧ r.right = none ∧ r.step = 1 := by
  simp only [isEvery, Bool.and_eq_true, decide_eq_true_eq, Option.isNone_iff_eq_none, and_assoc]

/-- The range that consists of everything is recognized by its form. -/
theorem isEvery_iff : r.isEvery = true ↔ ∀ i, r.Mem i := by
  rw [isEvery_iff_parts]
  constructor
  · rintro ⟨hl, hr, hs⟩ i
    refine ⟨inWindow_iff.2 ⟨by omega, fun right h => by rw [hr] at h; cases h⟩, ?_⟩
    rw [hs]; exact Int.one_dvd _
  · intro h
    have hl : r.left = 0 := by
      have := (inWindow_iff.1 (h 0).1).1
      omega
    have hr : r.right = none := by
      cases hr : r.right with
      | none => rfl
      | some right =>
        -- a bound leaves out the index above it
        have := (inWindow_iff.1 (h (right.toNat + 1)).1).2 right hr
        omega
    have hs := r.ascending_of_open hr
    have h1 : r.step ∣ 1 := by simpa [first_of_pos hs, hl] using (h 1).2
    have := Int.le_of_dvd (by decide) h1
    exact ⟨hl, hr, by omega⟩

theorem count_eq_none_of_isEvery (h : r.isEvery = true) : r.count = none :=
  count_eq_none_iff.2 (isEvery_iff_parts.1 h).2.1

/-- A step further on is a step more from the beginning. -/
theorem add_step (i : Int) (k : Nat) : i + r.step + k * r.step = i + (k + 1 : Nat) * r.step := by
  rw [Int.natCast_succ, Int.add_mul, Int.one_mul]
  omega

private theorem allFrom_iff_forall {test : Nat → Bool} {n : Nat} {i : Int} :
    r.allFrom test n i = true ↔ ∀ k : Nat, k < n → test (i + k * r.step).toNat = true := by
  induction n generalizing i with
  | zero => simp [allFrom]
  | succ n ih =>
    rw [allFrom, Bool.and_eq_true, ih]
    constructor
    · rintro ⟨h0, h⟩ k hk
      cases k with
      | zero => simpa using h0
      | succ k =>
        rw [← add_step]
        exact h k (by omega)
    · intro h
      refine ⟨by simpa using h 0 (by omega), fun k hk => ?_⟩
      rw [add_step]
      exact h (k + 1) (by omega)

/-- Walking through a range tests exactly its indexes. -/
theorem allFrom_iff {test : Nat → Bool} {n : Nat} (hn : r.count = some n) :
    r.allFrom test n r.first = true ↔ ∀ i, r.Mem i → test i = true := by
  rw [allFrom_iff_forall]
  constructor
  · intro h i hi
    obtain ⟨k, hk, he⟩ := (mem_iff_of_count_eq_some hn).1 hi
    have := h k hk
    rwa [← he, Int.toNat_natCast] at this
  · intro h k hk
    obtain ⟨i, hi, he⟩ := exists_mem_of_lt_count hn hk
    rw [← he, Int.toNat_natCast]
    exact h i hi

end PathContainment.IndexRange
