import PathContainment.Proofs.IndexRange.Members
import PathContainment.Proofs.Slice

/-!
# The range of a slice is the slice as it is written

Read literally, a slice `[start:stop:step]` is a sequence: the start, the start plus the step, and so on, as long as
the end is not reached and the integers are indexes that an array can have. `Progression.ofSlice` writes this down
without a range, a window or a residue class. The range of the slice agrees with it in the three ways in which it can
be used (`isProgression_of_ofBounds`): the walk lists the sequence, `containsIndex` tells what is in it, and `count`
is its length. The count is absent for an ascending slice without an end and for `[:stop:-1]`, although their
sequences end, beyond all arrays, at the largest index.

The walk goes on exactly as long as the sequence. Nothing more is needed for the list; the two others rest on the
window being an interval, which the walk enters at one end, so that no index of the window lies behind a gap.
-/

namespace PathContainment

/-- A sequence of integers at equal distances, which goes on as long as the integers are before its end. -/
structure Progression where
  first : Int
  step : Int
  isBeforeEnd : Int → Bool

namespace Progression

/-- The integer after `k` steps, if the sequence goes on for so long. -/
def term (p : Progression) (k : Nat) : Int := p.first + k * p.step

/-- The integer is before the end, and it is an index that an array can have. -/
def goesOn (p : Progression) (i : Int) : Bool := p.isBeforeEnd i && 0 ≤ i && i ≤ maxIndex

theorem goesOn_iff {p : Progression} {i : Int} :
    p.goesOn i = true ↔ p.isBeforeEnd i = true ∧ 0 ≤ i ∧ i ≤ maxIndex := by
  simp only [goesOn, Bool.and_eq_true, decide_eq_true_eq, and_assoc]

/-- At most `n` integers of the sequence. -/
def take (p : Progression) (n : Nat) : List Int := ((List.range n).map p.term).takeWhile p.goesOn

/-- The slice as it is written. An ascending one begins at `0` by default. A descending one without a start begins at
the end of the array, so that its indexes are listed in the other direction, from the one after its end. -/
def ofSlice (start stop : Option Int64) (step : Int64) : Progression :=
  if 0 < step.toInt then
    { first := (start.getD 0).toInt, step := step.toInt, isBeforeEnd := fun i => stop.all (i < ·.toInt) }
  else
    match start with
    | some b => { first := b.toInt, step := step.toInt, isBeforeEnd := fun i => stop.all (·.toInt < i) }
    | none => { first := (stop.map (·.toInt + 1)).getD 0, step := 1, isBeforeEnd := fun _ => true }

end Progression

namespace IndexRange

variable {r : IndexRange} {start stop : Option Int64} {step : Int64}

/-- The walk does not end at the integer. -/
def goesOn (r : IndexRange) (i : Int) : Bool := r.inWindow i && i ≤ maxIndex

/-! ### The walk as a sequence -/

private theorem walk_succ (n : Nat) (i : Int) :
    r.walk (n + 1) i = if r.goesOn i then i.toNat :: r.walk n (i + r.step) else [] := rfl

private theorem nonneg_of_goesOn {i : Int} (h : r.goesOn i = true) : 0 ≤ i := by
  rw [goesOn, Bool.and_eq_true] at h
  have := (inWindow_iff.1 h.1).1
  omega

/-- The walk lists the indexes step by step, up to the first one at which it does not go on. -/
private theorem walk_eq_takeWhile (n : Nat) (i : Int) :
    (r.walk n i).map (fun j : Nat => (j : Int)) =
      ((List.range n).map fun k : Nat => i + k * r.step).takeWhile r.goesOn := by
  induction n generalizing i with
  | zero => rfl
  | succ n ih =>
    have hterms : (List.range (n + 1)).map (fun k : Nat => i + k * r.step) =
        i :: (List.range n).map fun k : Nat => i + r.step + k * r.step := by
      simp only [List.range_succ_eq_map, List.map_cons, List.map_map, Int.natCast_zero, Int.zero_mul, Int.add_zero,
        add_step]
      rfl
    rw [hterms, List.takeWhile_cons, walk_succ]
    by_cases hi : r.goesOn i = true
    · have hcast : (i.toNat : Int) = i := Int.toNat_of_nonneg (nonneg_of_goesOn hi)
      rw [if_pos hi, if_pos hi, List.map_cons, hcast, ih]
    · rw [if_neg hi, if_neg hi, List.map_nil]

private theorem mem_walk_iff {n : Nat} {i : Int} {x : Nat} :
    x ∈ r.walk n i ↔ ∃ k < n, (x : Int) = i + k * r.step ∧ ∀ j ≤ k, r.goesOn (i + j * r.step) = true := by
  induction n generalizing i with
  | zero => simp [walk]
  | succ n ih =>
    rw [walk_succ]
    constructor
    · intro hx
      by_cases hi : r.goesOn i = true
      · rw [if_pos hi, List.mem_cons, ih] at hx
        rcases hx with rfl | ⟨k, hk, hx, hgo⟩
        · refine ⟨0, Nat.succ_pos n, ?_, fun j hj => ?_⟩
          · rw [Int.toNat_of_nonneg (nonneg_of_goesOn hi)]
            omega
          · rw [Nat.le_zero.1 hj]
            simpa using hi
        · refine ⟨k + 1, by omega, by rw [hx, add_step], fun j hj => ?_⟩
          cases j with
          | zero => simpa using hi
          | succ j =>
            rw [← add_step]
            exact hgo j (by omega)
      · rw [if_neg hi] at hx
        cases hx
    · rintro ⟨k, hk, hx, hgo⟩
      have hi : r.goesOn i = true := by simpa using hgo 0 (Nat.zero_le k)
      rw [if_pos hi, List.mem_cons, ih]
      cases k with
      | zero => left; omega
      | succ k =>
        refine .inr ⟨k, by omega, by rw [hx, add_step], fun j hj => ?_⟩
        rw [add_step]
        exact hgo (j + 1) (by omega)

private theorem length_walk {n m : Nat} {i : Int} (h : ∀ k : Nat, r.goesOn (i + k * r.step) = true ↔ k < m) :
    (r.walk n i).length = min n m := by
  induction n generalizing i m with
  | zero => simp [walk]
  | succ n ih =>
    rw [walk_succ]
    have h0 : r.goesOn i = true ↔ 0 < m := by simpa using h 0
    by_cases hi : r.goesOn i = true
    · have htail : ∀ k : Nat, r.goesOn (i + r.step + k * r.step) = true ↔ k < m - 1 := by
        intro k
        rw [add_step, h]
        omega
      have hm := h0.1 hi
      rw [if_pos hi, List.length_cons, ih htail]
      omega
    · have hm : ¬0 < m := fun hm => hi (h0.2 hm)
      rw [if_neg hi, List.length_nil]
      omega

/-! ### The indexes of the walk -/

/-- Where the walk gets to it has not left the window before. -/
private theorem goesOn_of_le {j k : Nat} (hjk : j ≤ k) (hfirst : r.first ≤ maxIndex)
    (h : r.goesOn (r.first + k * r.step) = true) : r.goesOn (r.first + j * r.step) = true := by
  have hle : (j : Int) ≤ k := by omega
  simp only [goesOn, Bool.and_eq_true, decide_eq_true_eq, inWindow_iff] at h ⊢
  obtain ⟨⟨hleft, hright⟩, hmax⟩ := h
  by_cases hs : 0 < r.step
  · have hf := first_of_pos hs
    have h0 : 0 ≤ j * r.step := Int.mul_nonneg (by omega) (by omega)
    have h1 : j * r.step ≤ k * r.step := Int.mul_le_mul_of_nonneg_right hle (by omega)
    refine ⟨⟨by omega, fun right hr => ?_⟩, by omega⟩
    have := hright right hr
    omega
  · obtain ⟨right, hr⟩ := exists_right_of_neg hs
    have hf := first_of_neg hs hr
    have h0 : j * r.step ≤ 0 := Int.mul_nonpos_of_nonneg_of_nonpos (by omega) (by omega)
    have h1 : k * r.step ≤ j * r.step := Int.mul_le_mul_of_nonpos_right hle (by omega)
    refine ⟨⟨by omega, fun right' hr' => ?_⟩, by omega⟩
    rw [hr] at hr'
    cases hr'
    omega

/-- The indexes that the walk lists are those that the range contains. -/
theorem containsIndex_iff_mem_take (hfirst : r.first ≤ maxIndex) {i : Nat} :
    r.containsIndex i = true ↔ ∃ n, i ∈ r.take n := by
  rw [containsIndex_iff, mem_iff_exists]
  constructor
  · rintro ⟨hmax, k, hi, hw⟩
    have hgo : r.goesOn (r.first + k * r.step) = true := by
      rw [goesOn, hw, ← hi]
      simpa using hmax
    exact ⟨k + 1, mem_walk_iff.2 ⟨k, Nat.lt_succ_self k, hi, fun j hj => goesOn_of_le hj hfirst hgo⟩⟩
  · rintro ⟨n, hi⟩
    obtain ⟨k, -, hi, hgo⟩ := mem_walk_iff.1 hi
    have hk := hgo k (Nat.le_refl k)
    rw [goesOn, Bool.and_eq_true, decide_eq_true_eq, ← hi] at hk
    exact ⟨by exact_mod_cast hk.2, k, hi, hi ▸ hk.1⟩

/-- The walk ends after as many indexes as are counted, if it has not been cut off before. -/
theorem length_take {m : Nat} (hm : r.count = some m) (hright : ∀ right, r.right = some right → right ≤ maxIndex)
    (n : Nat) : (r.take n).length = min n m := by
  refine length_walk fun k => ?_
  rw [← inWindow_iff_lt_count hm k, goesOn, Bool.and_eq_true, decide_eq_true_eq]
  refine and_iff_left_of_imp fun hw => ?_
  obtain ⟨right, hr⟩ := exists_right_of_count hm
  have := (inWindow_iff.1 hw).2 right hr
  have := hright right hr
  omega

/-! ### The slice as it is written -/

private theorem goesOn_iff {i : Int} :
    r.goesOn i = true ↔ (r.left ≤ i ∧ ∀ right, r.right = some right → i ≤ right) ∧ i ≤ maxIndex := by
  rw [goesOn, Bool.and_eq_true, decide_eq_true_eq, inWindow_iff]

/-- The range of a slice begins where the slice begins and has the same step, and its walk goes on as long as the slice
does. -/
private theorem ofSlice_of_ofBounds (h : ofBounds start stop step = .ok r) :
    (Progression.ofSlice start stop step).first = r.first ∧ (Progression.ofSlice start stop step).step = r.step ∧
    ∀ k : Nat, (Progression.ofSlice start stop step).goesOn (r.first + k * r.step) =
      r.goesOn (r.first + k * r.step) := by
  obtain ⟨⟨hstart, hstop⟩, ⟨hup, hleft, hright, hstep⟩ | ⟨hdown, hleft, -, hrest⟩⟩ := ofBounds_cases h
  · -- upwards the walk stays above the left bound, and the right bound is the integer before the end
    have hfirst : r.first = (start.getD 0).toInt := by rw [first_of_pos (by omega), hleft]
    unfold Progression.ofSlice
    rw [if_pos hup]
    refine ⟨hfirst.symm, hstep.symm, fun k => ?_⟩
    have hk : 0 ≤ k * r.step := Int.mul_nonneg (by omega) (by omega)
    rw [Bool.eq_iff_iff, goesOn_iff, Progression.goesOn_iff, hright]
    cases stop with
    | none =>
      simp only [Option.all_none, Option.map_none, reduceCtorEq, false_implies, implies_true, true_and, and_true]
      omega
    | some b =>
      simp only [Option.all_some, Option.map_some, Option.some.injEq, forall_eq', decide_eq_true_eq]
      omega
  · unfold Progression.ofSlice
    rw [if_neg (by omega)]
    obtain ⟨b, rfl, hright, hstep⟩ | ⟨rfl, -, hright, hstep⟩ := hrest
    · -- downwards it stays below the start, and the left bound is the integer after the end, or `0`
      have hfirst : r.first = b.toInt := first_of_neg (by omega) hright
      refine ⟨hfirst.symm, hstep.symm, fun k => ?_⟩
      have hk : k * r.step ≤ 0 := Int.mul_nonpos_of_nonneg_of_nonpos (by omega) (by omega)
      rw [Bool.eq_iff_iff, goesOn_iff, Progression.goesOn_iff, hright, hleft]
      simp only [Option.some.injEq, forall_eq']
      cases stop with
      | none =>
        simp only [Option.all_none, Option.map_none, Option.getD_none, true_and]
        omega
      | some e =>
        have := hstop e rfl
        simp only [Option.all_some, Option.map_some, Option.getD_some, decide_eq_true_eq]
        omega
    · -- without a start the range is walked upwards from its left bound, and it is open
      have hfirst : r.first = r.left := first_of_pos (by omega)
      refine ⟨(hfirst.trans hleft).symm, hstep.symm, fun k => ?_⟩
      rw [Bool.eq_iff_iff, goesOn_iff, Progression.goesOn_iff, hright, hstep]
      simp only [reduceCtorEq, false_implies, implies_true, true_and, and_true]
      omega

private theorem right_eq_none_iff_of_ofBounds (h : ofBounds start stop step = .ok r) :
    r.right = none ↔ ¬((step < 0 ∧ start.isSome) ∨ (0 < step ∧ stop.isSome)) := by
  have hzero : (0 : Int64).toInt = 0 := rfl
  rw [Int64.lt_iff_toInt_lt, Int64.lt_iff_toInt_lt, hzero]
  obtain ⟨-, ⟨hup, -, hright, -⟩ | ⟨hdown, -, -, hrest⟩⟩ := ofBounds_cases h
  · have hnot : ¬step.toInt < 0 := by omega
    simp only [hright, hup, hnot, false_and, true_and, false_or, Option.map_eq_none_iff, Option.not_isSome_iff_eq_none]
  · have hnot : ¬0 < step.toInt := by omega
    simp only [hdown, hnot, false_and, true_and, or_false, Option.not_isSome_iff_eq_none]
    obtain ⟨b, rfl, hright, -⟩ | ⟨rfl, -, hright, -⟩ := hrest
    · rw [hright]
      exact iff_of_false (Option.some_ne_none _) (Option.some_ne_none _)
    · exact iff_of_true hright rfl

/-- The range of a slice is the slice as it is written: its walk lists the integers of the slice one after the other,
it contains exactly these indexes, and their number is counted if the slice is a descending one with a start or an
ascending one with an end, and not otherwise. -/
theorem isProgression_of_ofBounds (h : ofBounds start stop step = .ok r) :
    let p := Progression.ofSlice start stop step
    (∀ n, (r.take n).map (fun i : Nat => (i : Int)) = p.take n) ∧
    (∀ i : Nat, r.containsIndex i = true ↔ ∃ n, (i : Int) ∈ p.take n) ∧
    if (step < 0 ∧ start.isSome) ∨ (0 < step ∧ stop.isSome) then
      ∃ m, r.count = some m ∧ ∀ n, (p.take n).length = min n m
    else r.count = none := by
  intro p
  obtain ⟨hfirst, hstep, hgo⟩ := ofSlice_of_ofBounds h
  have htake : ∀ n, (r.take n).map (fun i : Nat => (i : Int)) = p.take n := by
    intro n
    have hterm : p.term = fun k : Nat => r.first + k * r.step := by
      funext k
      rw [Progression.term, hfirst, hstep]
    have hgoes : (r.goesOn ∘ fun k : Nat => r.first + k * r.step) =
        p.goesOn ∘ fun k : Nat => r.first + k * r.step := by
      funext k
      exact (hgo k).symm
    rw [take, walk_eq_takeWhile, Progression.take, hterm, List.takeWhile_map, List.takeWhile_map, hgoes]
  refine ⟨htake, fun i => ?_, ?_⟩
  · rw [containsIndex_iff_mem_take (first_le_of_ofBounds h)]
    refine exists_congr fun n => ?_
    rw [← htake, List.mem_map]
    constructor
    · exact fun hi => ⟨i, hi, rfl⟩
    · rintro ⟨j, hj, hji⟩
      rwa [← Int.ofNat_inj.1 hji]
  · split
    · rename_i hcond
      cases hn : r.count with
      | none => exact absurd hcond ((right_eq_none_iff_of_ofBounds h).1 (count_eq_none_iff.1 hn))
      | some m =>
        refine ⟨m, rfl, fun n => ?_⟩
        rw [← htake, List.length_map, length_take hn (ofBounds_bounds h).2]
    · rename_i hcond
      exact count_eq_none_iff.2 ((right_eq_none_iff_of_ofBounds h).2 hcond)

/-- The slice `[16:2:-6]` is the sequence of `16`, `10` and `4`; the next integer would be before the end. -/
theorem isProgression_of_ofBounds_of_overhang :
    ∃ r, ofBounds (some 16) (some 2) (-6) = .ok r ∧ (r.take 5).map (fun i : Nat => (i : Int)) = [16, 10, 4] ∧
      r.containsIndex 10 = true ∧ r.count = some 3 := by
  obtain ⟨r, hr⟩ : ∃ r, ofBounds (some 16) (some 2) (-6) = .ok r := ⟨_, rfl⟩
  obtain ⟨htake, hcontains, hcount⟩ := isProgression_of_ofBounds hr
  have hlist : (Progression.ofSlice (some 16) (some 2) (-6)).take 5 = [16, 10, 4] := by decide
  refine ⟨r, hr, (htake 5).trans hlist, (hcontains 10).2 ⟨5, ?_⟩, ?_⟩
  · rw [hlist]
    decide
  · rw [if_pos (by decide)] at hcount
    obtain ⟨m, hm, hlength⟩ := hcount
    have hthree : 3 = min 5 m := by rw [← hlength 5, hlist]; rfl
    rw [hm]
    congr 1
    omega

end IndexRange

end PathContainment
