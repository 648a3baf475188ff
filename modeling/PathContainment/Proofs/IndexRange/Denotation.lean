import PathContainment.Proofs.IndexRange.Containment
import PathContainment.Proofs.Slice

/-!
# What a range stands for

A range that is walked upwards stands for its left bound plus any multiple of the step, up to the right bound if there
is one. A range that is walked downwards stands for its right bound less any multiple of the step, down to the left
bound. These are the integers that `IndexRange.Mem` describes by the window and the residue class
(`denotes_iff_exists_mem`), none of them negative. Between ranges of 64-bit bounds, `containsRange` is the inclusion of
what they stand for (`containsRange_iff_denotes`), although it looks at the extremes of the contained range only.
-/

namespace PathContainment.IndexRange

/-- The integer is one of those that the range stands for. -/
def Denotes (r : IndexRange) (i : Int) : Prop :=
  if 0 < r.step then ∃ k : Nat, i = r.left + k * r.step ∧ ∀ right, r.right = some right → i ≤ right
  else ∃ right, r.right = some right ∧ ∃ k : Nat, i = right - k * r.step.natAbs ∧ r.left ≤ i

variable {r s : IndexRange} {i : Int}

/-- A range stands for what some number of steps from its first index leads to inside the window. -/
private theorem denotes_iff_exists_step :
    r.Denotes i ↔ ∃ k : Nat, i = r.first + k * r.step ∧ r.inWindow (r.first + k * r.step) = true := by
  unfold Denotes
  by_cases hs : 0 < r.step
  · simp only [hs, ↓reduceIte, first_of_pos hs, inWindow_iff]
    constructor
    · rintro ⟨k, rfl, hright⟩
      have hk : 0 ≤ k * r.step := Int.mul_nonneg (by omega) (by omega)
      exact ⟨k, rfl, by omega, hright⟩
    · rintro ⟨k, rfl, -, hright⟩
      exact ⟨k, rfl, hright⟩
  · obtain ⟨right, hr⟩ := exists_right_of_neg hs
    have hd : (r.step.natAbs : Int) = -r.step := by omega
    have hsub : ∀ k : Nat, right - k * -r.step = right + k * r.step := by
      intro k
      rw [Int.mul_neg, Int.sub_neg]
    simp only [hs, ↓reduceIte, first_of_neg hs hr, inWindow_iff, hr, hd, hsub, Option.some.injEq, exists_eq_left',
      forall_eq']
    constructor
    · rintro ⟨k, rfl, hleft⟩
      have hk : k * r.step ≤ 0 := Int.mul_nonpos_of_nonneg_of_nonpos (by omega) (by omega)
      exact ⟨k, rfl, hleft, by omega⟩
    · rintro ⟨k, rfl, hleft, -⟩
      exact ⟨k, rfl, hleft⟩

/-- What a range stands for are its indexes, which are natural numbers. -/
theorem denotes_iff_exists_mem : r.Denotes i ↔ ∃ n : Nat, i = n ∧ r.Mem n := by
  rw [denotes_iff_exists_step]
  constructor
  · rintro ⟨k, hi, hw⟩
    have hleft := (inWindow_iff.1 hw).1
    have hn : (i.toNat : Int) = i := Int.toNat_of_nonneg (by omega)
    exact ⟨i.toNat, hn.symm, mem_iff_exists.2 ⟨k, hn.trans hi, hw⟩⟩
  · rintro ⟨n, rfl, hn⟩
    exact mem_iff_exists.1 hn

theorem denotes_natCast_iff {n : Nat} : r.Denotes n ↔ r.Mem n := by
  rw [denotes_iff_exists_mem]
  constructor
  · rintro ⟨m, hm, hmem⟩
    rwa [Int.ofNat_inj.1 hm]
  · exact fun h => ⟨n, rfl, h⟩

/-- A range contains another one, which is made of 64-bit bounds, exactly when it stands for all that the other one
stands for. -/
theorem containsRange_iff_denotes {start stop : Option Int64} {step : Int64} (hs : ofBounds start stop step = .ok s)
    (r : IndexRange) : r.containsRange s = true ↔ ∀ i, s.Denotes i → r.Denotes i := by
  rw [containsRange_iff (first_le_of_ofBounds hs)]
  constructor
  · intro h i hi
    obtain ⟨n, rfl, hn⟩ := denotes_iff_exists_mem.1 hi
    exact denotes_natCast_iff.2 (h n hn)
  · intro h n hn
    exact denotes_natCast_iff.1 (h n (denotes_natCast_iff.2 hn))

/-- The slice `[16:2:-6]` goes down from `16` and stops at `4`, short of its left bound `3`. So it lies in the slice
`[4:20:3]`, whose left bound is `4`. -/
theorem containsRange_iff_denotes_of_overhang :
    ∃ r s, ofBounds (some 4) (some 20) 3 = .ok r ∧ ofBounds (some 16) (some 2) (-6) = .ok s ∧ s.left < r.left ∧
      ∀ i, s.Denotes i → r.Denotes i := by
  obtain ⟨r, hr⟩ : ∃ r, ofBounds (some 4) (some 20) 3 = .ok r := ⟨_, rfl⟩
  obtain ⟨s, hs⟩ : ∃ s, ofBounds (some 16) (some 2) (-6) = .ok s := ⟨_, rfl⟩
  have hcontains : s.left < r.left ∧ r.containsRange s = true := by
    cases hr
    cases hs
    decide
  exact ⟨r, s, hr, hs, hcontains.1, (containsRange_iff_denotes hs r).1 hcontains.2⟩

end PathContainment.IndexRange
