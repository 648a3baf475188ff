import PathContainment.Element.NormalForm
import PathContainment.Proofs.IndexRange.Members
import PathContainment.Proofs.Slice

/-!
# Slices of evenly spaced lists

`Slice.ofEvenlySpaced?` writes a slice for the lists of at least three indexes at equal distances
(`isSome_ofEvenlySpaced?_iff`). What this slice is like is told once, by `Slice.Spacing`. It covers exactly the indexes
of the list, unless the list contains the largest index of all (`Spacing.mem_range_iff`). That index is left to a slice
without an end, which covers infinitely many (`Spacing.count_eq`); of those that an array can have it covers the ones of
the list.
-/

namespace PathContainment

variable {d i : Nat} {l : List Nat}

theorem spacedBy_cons_cons {j : Nat} : spacedBy d (i :: j :: l) = true ↔ j = i + d ∧ spacedBy d (j :: l) = true := by
  rw [spacedBy, Bool.and_eq_true, decide_eq_true_eq]

theorem getLastD_of_spacedBy (h : spacedBy d (i :: l) = true) : l.getLastD i = i + l.length * d := by
  induction l generalizing i with
  | nil => simp
  | cons j l ih =>
    obtain ⟨rfl, h⟩ := spacedBy_cons_cons.1 h
    rw [List.getLastD_cons, ih h, List.length_cons, Nat.add_mul]
    omega

theorem mem_iff_of_spacedBy (h : spacedBy d (i :: l) = true) {x : Nat} :
    x ∈ i :: l ↔ ∃ k ≤ l.length, x = i + k * d := by
  induction l generalizing i with
  | nil =>
    rw [List.mem_singleton, List.length_nil]
    constructor
    · rintro rfl
      exact ⟨0, Nat.le_refl 0, by omega⟩
    · rintro ⟨k, hk, rfl⟩
      rw [Nat.le_zero.1 hk]; omega
  | cons j l ih =>
    obtain ⟨rfl, h⟩ := spacedBy_cons_cons.1 h
    rw [List.mem_cons, ih h, List.length_cons]
    constructor
    · rintro (rfl | ⟨k, hk, rfl⟩)
      · exact ⟨0, Nat.zero_le _, by omega⟩
      · exact ⟨k + 1, by omega, by rw [Nat.add_mul]; omega⟩
    · rintro ⟨k, hk, rfl⟩
      cases k with
      | zero => left; omega
      | succ k => exact .inr ⟨k, by omega, by rw [Nat.add_mul]; omega⟩

namespace IndexRange

/-- The indexes of an ascending range with an end are the evenly spaced ones from one bound to the other. -/
theorem mem_iff_of_ascending {r : IndexRange} {n : Nat} (hd : 0 < d) (hl : r.left = i)
    (hr : r.right = some ((i + n * d : Nat) : Int)) (hs : r.step = d) {x : Nat} :
    r.Mem x ↔ ∃ k ≤ n, x = i + k * d := by
  rw [mem_iff_exists, first_of_pos (by omega), hl, hs]
  constructor
  · rintro ⟨k, hx, hw⟩
    have hle := (inWindow_iff.1 hw).2 _ hr
    refine ⟨k, Nat.le_of_mul_le_mul_right (c := d) ?_ hd, by exact_mod_cast hx⟩
    have : i + k * d ≤ i + n * d := by exact_mod_cast hle
    omega
  · rintro ⟨k, hk, rfl⟩
    have hle := Nat.mul_le_mul_right d hk
    refine ⟨k, by push_cast; rfl, inWindow_iff.2 ⟨by rw [hl]; exact_mod_cast Nat.le_add_right _ _, ?_⟩⟩
    intro right hright
    rw [hr] at hright
    cases hright
    exact_mod_cast Nat.add_le_add_left hle i

/-- The range of an ascending slice with bounds that are not negative. -/
theorem ofBounds_of_nonneg {start stop : Option Int64} {step : Int64} (hstep : 0 < step.toInt)
    (hstart : ∀ b ∈ start, 0 ≤ b) (hstop : ∀ b ∈ stop, 0 ≤ b) :
    ∃ r, ofBounds start stop step = .ok r ∧ r.left = (start.getD 0).toInt.toNat ∧
      r.right = stop.map (·.toInt - 1) ∧ r.step = step.toInt := by
  have hzero : step ≠ 0 := by rintro rfl; cases hstep
  have hmin : step ≠ Int64.minValue := by
    rintro rfl
    exact absurd hstep (by decide)
  have hneg : negativeBound? start stop = none := by
    rw [negativeBound?, Option.or_eq_none_iff, Option.filter_eq_none_iff, Option.filter_eq_none_iff]
    simpa using ⟨hstart, hstop⟩
  simp only [ofBounds, hzero, hmin, hneg, hstep, ↓reduceDIte, ↓reduceIte]
  exact ⟨_, rfl, rfl, rfl, rfl⟩

end IndexRange

namespace Slice

theorem toInt_ofNat {n : Nat} (h : n ≤ maxIndex) : (Int64.ofNat n).toInt = n :=
  Int64.toInt_ofNat_of_lt (by simp only [maxIndex] at h; omega)

/-- A slice and its range as they are written for an evenly spaced list: from `i` on, the distance `d` is taken `n` times,
and the end is left out if that leads to the largest index. -/
structure Spacing (l : List Nat) (s : Slice) (r : IndexRange) (i d n : Nat) : Prop where
  pos : 0 < d
  two_le : 2 ≤ n
  length_eq : l.length = n + 1
  last_le : i + n * d ≤ maxIndex
  mem_iff : ∀ x, x ∈ l ↔ ∃ k ≤ n, x = i + k * d
  start_ne : s.start ≠ some 0
  range_eq : s.range = some r
  left_eq : r.left = i
  right_eq : r.right = if i + n * d = maxIndex then none else some ((i + n * d : Nat) : Int)
  step_eq : r.step = d

/-! ### The parts of the slice -/

private theorem parts_of_make {start stop : Option Int64} {step : Int64} {s : Slice}
    (h : (make start stop step).toOption = some s) : s.start = start ∧ s.stop = stop ∧ s.step = step := by
  unfold make at h
  split at h
  · cases h
  · cases h
    exact ⟨rfl, rfl, rfl⟩

private theorem nonneg_ofNat {n : Nat} (h : n ≤ maxIndex) : 0 ≤ Int64.ofNat n := by
  rw [Int64.le_iff_toInt_le, toInt_ofNat h]
  exact Int.natCast_nonneg n

/-- The start of the slice is left out if it is `0`. -/
private theorem start_of_index (hi : i ≤ maxIndex) :
    ((if i = 0 then none else some (Int64.ofNat i)).getD 0).toInt = i ∧
    (∀ b ∈ (if i = 0 then none else some (Int64.ofNat i)), 0 ≤ b) ∧
    (if i = 0 then none else some (Int64.ofNat i)) ≠ some 0 := by
  by_cases h0 : i = 0
  · rw [if_pos h0, h0]
    exact ⟨rfl, by simp, by simp⟩
  · rw [if_neg h0]
    refine ⟨toInt_ofNat hi, fun b hb => ?_, fun h => ?_⟩
    · cases hb
      exact nonneg_ofNat hi
    · have hzero := congrArg Int64.toInt (Option.some.inj h)
      rw [toInt_ofNat hi] at hzero
      exact h0 (Int.ofNat_inj.1 hzero)

/-- The end of the slice is the integer after the last index, or it is left out. -/
private theorem stop_of_last {last : Nat} (hlast : last ≤ maxIndex) :
    (word? (last + 1)).map (fun b => b.toInt - 1) = (if last = maxIndex then none else some (last : Int)) ∧
    ∀ b ∈ word? (last + 1), 0 ≤ b := by
  unfold word?
  by_cases hmax : last = maxIndex
  · rw [if_pos hmax, if_neg (by omega)]
    exact ⟨rfl, fun b hb => by cases hb⟩
  · have hstop : last + 1 ≤ maxIndex := by omega
    rw [if_neg hmax, if_pos hstop, Option.map_some, toInt_ofNat hstop]
    refine ⟨by congr 1; omega, fun b hb => ?_⟩
    cases hb
    exact nonneg_ofNat hstop

/-- The slice of an evenly spaced list. -/
theorem exists_spacing {s : Slice} (hl : l.Pairwise (· < ·)) (h : ofEvenlySpaced? l = some s) :
    ∃ r i d n, Spacing l s r i d n := by
  unfold ofEvenlySpaced? at h
  split at h
  · rename_i i j k rest
    split at h
    · rename_i hc
      simp only [Bool.and_eq_true, List.all_eq_true, decide_eq_true_eq] at hc
      obtain ⟨hle, hsp⟩ := hc
      have hij : i < j := (List.pairwise_cons.1 hl).1 j (List.mem_cons_self ..)
      have hi : i ≤ maxIndex := hle i (by simp)
      have hj : j ≤ maxIndex := hle j (by simp)
      have hlast : (i :: j :: k :: rest).getLastD j = i + (j :: k :: rest).length * (j - i) :=
        getLastD_of_spacedBy hsp
      have hlastle : i + (j :: k :: rest).length * (j - i) ≤ maxIndex :=
        hle _ ((mem_iff_of_spacedBy hsp).2 ⟨_, Nat.le_refl _, rfl⟩)
      rw [hlast] at h
      obtain ⟨hstart, hstop, hstep⟩ := parts_of_make h
      obtain ⟨hfirst, hstart0, hne⟩ := start_of_index hi
      obtain ⟨hright, hstop0⟩ := stop_of_last hlastle
      have hdist : (Int64.ofNat (j - i)).toInt = (j - i : Nat) := toInt_ofNat (by omega)
      have hpos : 0 < (Int64.ofNat (j - i)).toInt := by rw [hdist]; omega
      obtain ⟨r, hr, hleft, hrr, hrs⟩ := IndexRange.ofBounds_of_nonneg hpos hstart0 hstop0
      refine ⟨r, i, j - i, (j :: k :: rest).length, ?_⟩
      exact {
        pos := by omega
        two_le := by simp
        length_eq := rfl
        last_le := hlastle
        mem_iff := fun x => mem_iff_of_spacedBy hsp
        start_ne := by rw [hstart]; exact hne
        range_eq := by rw [range, hstart, hstop, hstep, hr]; rfl
        left_eq := by rw [hleft, hfirst, Int.toNat_natCast]
        right_eq := by rw [hrr, hright]
        step_eq := by rw [hrs, hdist] }
    · cases h
  · cases h

namespace Spacing

variable {s : Slice} {r : IndexRange} {n : Nat}

/-- The last index of the list is the largest of all exactly when that one is in the list. -/
theorem maxIndex_mem_iff (h : Spacing l s r i d n) : maxIndex ∈ l ↔ i + n * d = maxIndex := by
  rw [h.mem_iff]
  constructor
  · rintro ⟨k, hk, hmax⟩
    have := Nat.mul_le_mul_right d hk
    have := h.last_le
    omega
  · exact fun hmax => ⟨n, Nat.le_refl n, hmax.symm⟩

/-- The slice covers the indexes of the list. Without an end it covers others as well, but they are no indexes that an
array can have. -/
theorem mem_range_iff (h : Spacing l s r i d n) {x : Nat} (hx : x ≤ maxIndex ∨ maxIndex ∉ l) :
    r.Mem x ↔ x ∈ l := by
  rw [h.mem_iff]
  by_cases hmax : i + n * d = maxIndex
  · have hn : r.count = none := by
      rw [IndexRange.count_eq_none_iff, h.right_eq, if_pos hmax]
    have hfirst : r.first = i := by
      rw [IndexRange.first_of_pos (by rw [h.step_eq]; exact_mod_cast h.pos), h.left_eq]
    have hle : x ≤ maxIndex := hx.resolve_right fun hnot => hnot (h.maxIndex_mem_iff.2 hmax)
    rw [IndexRange.mem_iff_of_count_eq_none hn, hfirst, h.step_eq]
    constructor
    · rintro ⟨k, hk⟩
      have hk : x = i + k * d := by exact_mod_cast hk
      exact ⟨k, Nat.le_of_mul_le_mul_right (c := d) (by omega) h.pos, hk⟩
    · rintro ⟨k, -, rfl⟩
      exact ⟨k, by push_cast; rfl⟩
  · exact IndexRange.mem_iff_of_ascending h.pos h.left_eq (by rw [h.right_eq, if_neg hmax]) h.step_eq

/-- The slice counts the entries of the list, unless it has no end. -/
theorem count_eq (h : Spacing l s r i d n) : r.count = if maxIndex ∈ l then none else some l.length := by
  by_cases hmax : i + n * d = maxIndex
  · rw [if_pos (h.maxIndex_mem_iff.2 hmax), IndexRange.count_eq_none_iff, h.right_eq, if_pos hmax]
  · have hwidth : ((i + n * d : Nat) : Int) - i = n * d := by push_cast; omega
    have hquot : (n * d : Int) / d = n := Int.mul_ediv_cancel _ (by have := h.pos; omega)
    have hnotlt : ¬((i + n * d : Nat) : Int) < i := by push_cast; omega
    rw [if_neg fun hm => hmax (h.maxIndex_mem_iff.1 hm), IndexRange.count, h.right_eq, if_neg hmax, h.left_eq,
      h.step_eq, Option.map_some, if_neg hnotlt, hwidth, Int.natAbs_natCast, hquot, h.length_eq, Int.toNat_natCast]

/-- A list of all indexes would be the only one whose slice covers everything. -/
theorem isEvery_eq_false (h : Spacing l s r i d n) (hlen : l.length ≤ maxIndex) : r.isEvery = false := by
  rw [← Bool.not_eq_true, IndexRange.isEvery_iff_parts]
  rintro ⟨hleft, hright, hstep⟩
  have hi : i = 0 := by rw [← h.left_eq, hleft]
  have hd : d = 1 := by
    have := h.step_eq
    omega
  have hmax : i + n * d = maxIndex := by
    rw [h.right_eq] at hright
    split at hright
    · rename_i hmax
      exact hmax
    · cases hright
  have := h.length_eq
  rw [hi, hd] at hmax
  omega

end Spacing

/-- Evenly spaced lists are written as a slice if they have at least three indexes, all of which an array can have. -/
theorem isSome_ofEvenlySpaced?_iff (hl : l.Pairwise (· < ·)) :
    (ofEvenlySpaced? l).isSome = true ↔ 3 ≤ l.length ∧ (∃ d, spacedBy d l = true) ∧ ∀ x ∈ l, x ≤ maxIndex := by
  constructor
  · intro h
    obtain ⟨s, hs⟩ := Option.isSome_iff_exists.1 h
    unfold ofEvenlySpaced? at hs
    split at hs
    · split at hs
      · rename_i hc
        rw [Bool.and_eq_true, List.all_eq_true] at hc
        exact ⟨by simp, ⟨_, hc.2⟩, fun x hx => of_decide_eq_true (hc.1 x hx)⟩
      · cases hs
    · cases hs
  · rintro ⟨hthree, ⟨d, hsp⟩, hle⟩
    match l, hthree with
    | i :: j :: k :: rest, _ =>
      have hij : i < j := (List.pairwise_cons.1 hl).1 j (List.mem_cons_self ..)
      have hj : j ≤ maxIndex := hle j (by simp)
      have hd : d = j - i := by
        have := (spacedBy_cons_cons.1 hsp).1
        omega
      have hall : (i :: j :: k :: rest).all (· ≤ maxIndex) = true := by
        simpa only [List.all_eq_true, decide_eq_true_eq] using hle
      have hstep : Int64.ofNat (j - i) ≠ 0 := by
        intro h0
        have hzero : ((j - i : Nat) : Int) = 0 := by rw [← toInt_ofNat (by omega), h0]; rfl
        omega
      rw [ofEvenlySpaced?, hall, ← hd, hsp, Bool.and_self, if_pos rfl, make, hd, dif_neg hstep]
      rfl

end Slice

end PathContainment
