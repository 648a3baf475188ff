import PathContainment.Proofs.IndexRange.Progression
import PathContainment.Proofs.Machine.Integer

/-!
# Ranges of indexes on a machine

The functions on ranges once more, as a machine evaluates them: one operation after the other, each with the result that
the machine has for it. Additions are tested for their result where it may be missing (`Except.toOption`); all other
operations are made in the belief that they have one. They have, for all ranges that are made of 64-bit bounds, and the
functions give what those of `IndexRange` give, which calculate with all integers: `ofBounds_eq`, `count_eq`,
`containsIndex_eq`, `containsRange_eq`, `take_eq`.

All of this comes from what is known of the numbers of a range (`Bounded`): its bounds are not negative, but for the
right bound `-1`, so that the difference of any two of them is in range, and its step has an absolute value.
-/

namespace PathContainment.Machine

/-! ### The functions step by step -/

/-- The range of the slice `[start:stop:step]`. -/
def ofBounds (start stop : Option Int64) (step : Int64) : Except Trap (Except RangeError IndexRange) :=
  if hstep : step = 0 then return .error .zeroStep
  else if (abs step.toInt).toOption = none then return .error (.stepOverflow step)
  else match IndexRange.negativeBound? start stop with
    | some bound => return .error (.negativeBound bound)
    | none =>
      if hup : 0 < step.toInt then do
        let right ← stop.mapM fun last => sub last.toInt 1
        return .ok { left := (start.getD 0).toInt.toNat, right, step := step.toInt,
                     step_ne_zero := fun h0 => hstep (Int64.toInt_inj.1 h0), ascending_of_open := fun _ => hup }
      else match stop with
        | none => return IndexRange.descending start 0 step hstep
        | some last =>
          match (add last.toInt 1).toOption with
          | none => return .error (.stopOverflow last)
          | some left => return IndexRange.descending start left.toNat step hstep

/-- The number of indexes, which is an unsigned integer. -/
def count (r : IndexRange) : Except Trap (Option Nat) :=
  match r.right with
  | none => return none
  | some right =>
    if right < r.left then return some 0
    else do
      let steps ← div (← sub right r.left) (← abs r.step)
      return some (← unsigned (bits steps + 1))

/-- An index that no signed integer can be is not contained. -/
def containsIndex (r : IndexRange) (i : Nat) : Except Trap Bool :=
  if i ≤ maxIndex ∧ r.inWindow i then do
    let rest ← rem (← sub i r.first) r.step
    return rest = 0
  else return false

/-- The index at a position of the walk, if it goes on there, and the position after it, if there is one. -/
def next (r : IndexRange) (position : Option Int) : Except Trap (Option (Nat × Option Int)) :=
  match position with
  | none => return none
  | some i => if r.inWindow i ∧ 0 ≤ i then return some (i.toNat, (add i r.step).toOption) else return none

/-- At most `n` indexes of the walk from a position on. -/
def walk (r : IndexRange) : Nat → Option Int → Except Trap (List Nat)
  | 0, _ => return []
  | n + 1, position => do
    match ← next r position with
    | none => return []
    | some (i, position) => return i :: (← walk r n position)

/-- The first `n` indexes. -/
def take (r : IndexRange) (n : Nat) : Except Trap (List Nat) := walk r n (some r.first)

/-- No index of `s` lies below the window of `r`. Only a walk downwards may end before the left bound. -/
def staysAbove (r s : IndexRange) : Except Trap Bool :=
  if s.left < r.left then
    if 0 < s.step then return false
    else match s.right with
      | none => return false
      | some right => do
        let period ← abs s.step
        let lowest ← sub right (← mul (← div (← sub right s.left) period) period)
        return r.left ≤ lowest
  else return true

/-- No index of `s` lies above the window of `r`. Only a walk upwards may end before the right bound. -/
def staysBelow (r s : IndexRange) : Except Trap Bool :=
  match r.right, s.right with
  | none, _ => return true
  | some _, none => return false
  | some right, some right' =>
    if right' ≤ right then return true
    else if s.step < 0 then return false
    else do
      let highest ← add s.left (← mul (← div (← sub right' s.left) s.step) s.step)
      return highest ≤ right

/-- Every index of `s`, which has at least two of them, is an index of `r`. -/
def containsWalk (r s : IndexRange) : Except Trap Bool := do
  if (← rem (← abs s.step) (← abs r.step)) ≠ 0 then return false
  else if !(← staysAbove r s) then return false
  else if !(← staysBelow r s) then return false
  else return (← rem (← sub s.first r.first) r.step) = 0

/-- Every index of `s` is an index of `r`. -/
def containsRange (r s : IndexRange) : Except Trap Bool := do
  match ← count s with
  | some 0 => return true
  | some 1 =>
    match ← next s (some s.first) with
    | none => return true
    | some (i, _) => containsIndex r i
  | _ => containsWalk r s

/-! ### Making a range -/

variable {start stop : Option Int64} {step : Int64} {r s : IndexRange}

private theorem abs_toOption_eq_none_iff : (abs step.toInt).toOption = none ↔ step = Int64.minValue := by
  have hmin : Int64.minValue.toInt = -2 ^ 63 := by decide
  have hle := step.le_toInt
  have hlt := step.toInt_lt
  rw [← Int64.toInt_inj, hmin]
  constructor
  · intro h
    by_contra hne
    rw [abs_eq_ok (by omega) hlt] at h
    cases h
  · intro h
    rw [h]
    rfl

/-- The integer after a bound is missing only for the largest one. -/
private theorem add_one_toOption {last : Int64} (h : 0 ≤ last.toInt) :
    (add last.toInt 1).toOption = if last = Int64.maxValue then none else some (last.toInt + 1) := by
  have hmax : Int64.maxValue.toInt = 2 ^ 63 - 1 := by decide
  have hlt := last.toInt_lt
  split
  · rename_i hlast
    rw [hlast, hmax]
    rfl
  · rename_i hlast
    have hne : last.toInt ≠ Int64.maxValue.toInt := fun he => hlast (Int64.toInt_inj.1 he)
    rw [add, signed_eq_ok_of_nonneg (by omega) (by omega)]
    rfl

private theorem mapM_sub_one (h : ∀ last ∈ stop, 0 ≤ last.toInt) :
    (stop.mapM fun last => sub last.toInt 1) = .ok (stop.map (·.toInt - 1)) := by
  cases stop with
  | none => rfl
  | some last =>
    have h0 := h last rfl
    have hlt := last.toInt_lt
    rw [Option.mapM_some, sub_of_nonneg h0 (by omega) (by omega) (by omega)]
    rfl

theorem ofBounds_eq (start stop : Option Int64) (step : Int64) :
    ofBounds start stop step = .ok (IndexRange.ofBounds start stop step) := by
  unfold ofBounds IndexRange.ofBounds
  by_cases hzero : step = 0
  · rw [dif_pos hzero, dif_pos hzero]
    rfl
  rw [dif_neg hzero, dif_neg hzero]
  by_cases hmin : step = Int64.minValue
  · rw [if_pos (abs_toOption_eq_none_iff.2 hmin), if_pos hmin]
    rfl
  rw [if_neg fun h => hmin (abs_toOption_eq_none_iff.1 h), if_neg hmin]
  cases hneg : IndexRange.negativeBound? start stop with
  | some bound => rfl
  | none =>
    have hstop := (IndexRange.negativeBound?_eq_none_iff.1 hneg).2
    by_cases hup : 0 < step.toInt
    · simp only [hup, ↓reduceDIte]
      rw [mapM_sub_one hstop]
      rfl
    · simp only [hup, ↓reduceDIte]
      cases stop with
      | none => rfl
      | some last =>
        have hnext := add_one_toOption (hstop last rfl)
        by_cases hmax : last = Int64.maxValue
        · rw [if_pos hmax] at hnext
          simp only [hmax, ↓reduceIte]
          rfl
        · rw [if_neg hmax] at hnext
          simp only [hnext, hmax, ↓reduceIte]
          rfl

/-! ### The numbers of a range -/

/-- The numbers that a range is made of are those of a machine. -/
structure Bounded (r : IndexRange) : Prop where
  left_lt : (r.left : Int) < 2 ^ 63
  right_mem : ∀ right, r.right = some right → -1 ≤ right ∧ right < 2 ^ 63
  step_mem : -2 ^ 63 < r.step ∧ r.step < 2 ^ 63
  first_mem : 0 ≤ r.first ∧ r.first < 2 ^ 63

private theorem ne_minValue_of_ofBounds (h : IndexRange.ofBounds start stop step = .ok r) :
    step ≠ Int64.minValue := by
  rintro rfl
  have hnot : Int64.minValue ≠ 0 := by decide
  rw [IndexRange.ofBounds, dif_neg hnot, if_pos rfl] at h
  cases h

theorem bounded_of_ofBounds (h : IndexRange.ofBounds start stop step = .ok r) : Bounded r := by
  have hmax : (maxIndex : Int) < 2 ^ 63 := by decide
  have hstep : -2 ^ 63 < step.toInt ∧ step.toInt < 2 ^ 63 := by
    have hmin : Int64.minValue.toInt = -2 ^ 63 := by decide
    have hne : step.toInt ≠ Int64.minValue.toInt := fun he => ne_minValue_of_ofBounds h (Int64.toInt_inj.1 he)
    have hle := step.le_toInt
    have hlt := step.toInt_lt
    omega
  obtain ⟨hleft, hright⟩ := IndexRange.ofBounds_bounds h
  have hfirst := IndexRange.first_le_of_ofBounds h
  obtain ⟨⟨hstart0, hstop0⟩, hcases⟩ := IndexRange.ofBounds_cases h
  refine { left_lt := by omega, right_mem := fun right hr => ⟨?_, ?_⟩, step_mem := ?_, first_mem := ⟨?_, by omega⟩ }
  · rcases hcases with ⟨-, -, hr', -⟩ | ⟨-, -, -, ⟨b, hb, hr', -⟩ | ⟨-, -, hr', -⟩⟩
    · rw [hr'] at hr
      obtain ⟨last, hlast, rfl⟩ := Option.map_eq_some_iff.1 hr
      have := hstop0 last hlast
      omega
    · rw [hr'] at hr
      cases hr
      have := hstart0 b hb
      omega
    · rw [hr'] at hr
      cases hr
  · have := hright right hr
    omega
  · rcases hcases with ⟨-, -, -, hs⟩ | ⟨-, -, -, ⟨b, -, -, hs⟩ | ⟨-, -, -, hs⟩⟩
    · rwa [hs]
    · rwa [hs]
    · rw [hs]
      decide
  · rcases hcases with ⟨hup, -, -, hs⟩ | ⟨hdown, -, -, ⟨b, hb, hr', hs⟩ | ⟨-, -, -, hs⟩⟩
    · rw [IndexRange.first_of_pos (by omega)]
      omega
    · rw [IndexRange.first_of_neg (by omega) hr']
      exact hstart0 b hb
    · rw [IndexRange.first_of_pos (by omega)]
      omega

theorem Bounded.abs_step (h : Bounded r) : abs r.step = .ok r.step.natAbs := abs_eq_ok h.step_mem.1 h.step_mem.2

private theorem natAbs_step_pos (r : IndexRange) : 0 < (r.step.natAbs : Int) := by
  have := r.step_ne_zero
  omega

private theorem ediv_mul_mem {w p : Int} (hw : 0 ≤ w) (hp : 0 < p) : 0 ≤ w / p * p ∧ w / p * p ≤ w :=
  ⟨Int.mul_nonneg (Int.ediv_nonneg hw (by omega)) (by omega), Int.ediv_mul_le w (by omega)⟩

/-- The distance of the bounds is in range, and so is what becomes of it by division and multiplication with the same
number. -/
private theorem Bounded.width (h : Bounded r) {right p : Int} (hr : r.right = some right) (hle : r.left ≤ right)
    (hp : 0 < p) :
    sub right r.left = .ok (right - r.left) ∧ div (right - r.left) p = .ok ((right - r.left) / p) ∧
      mul ((right - r.left) / p) p = .ok ((right - r.left) / p * p) := by
  have hright := h.right_mem right hr
  have hmul := ediv_mul_mem (w := right - r.left) (by omega) hp
  refine ⟨sub_of_nonneg (by omega) hright.2 (by omega) h.left_lt, div_of_nonneg (by omega) (by omega) hp, ?_⟩
  exact signed_eq_ok_of_nonneg hmul.1 (by omega)

/-! ### Counting -/

theorem count_eq (h : Bounded r) : count r = .ok r.count := by
  unfold count IndexRange.count
  cases hr : r.right with
  | none => rfl
  | some right =>
    simp only [Option.map_some]
    by_cases hlt : right < r.left
    · rw [if_pos hlt, if_pos hlt]
      rfl
    · have hright := h.right_mem right hr
      have hle : (right - r.left) / r.step.natAbs ≤ right - r.left := Int.ediv_le_self _ (by omega)
      have h0 : 0 ≤ (right - r.left) / (r.step.natAbs : Int) := Int.ediv_nonneg (by omega) (by omega)
      obtain ⟨hsub, hdiv, -⟩ := h.width hr (by omega) (natAbs_step_pos r)
      rw [if_neg hlt, if_neg hlt, hsub, h.abs_step, ok_bind, ok_bind, hdiv, ok_bind, bits_of_nonneg h0 (by omega),
        unsigned, if_pos (by omega)]
      rfl

/-! ### Single indexes -/

/-- Whether there is a remainder can be told of all integers but the least one. -/
private theorem rem_eq_zero {a b : Int} (ha : -2 ^ 63 < a) (ha' : a < 2 ^ 63) (hb : b ≠ 0) :
    (do return decide ((← rem a b) = 0)) = (.ok (decide (b ∣ a)) : Except Trap Bool) := by
  rw [rem_eq_ok ha ha' hb, ok_bind]
  simp only [Int.dvd_iff_tmod_eq_zero]
  rfl

theorem containsIndex_eq (h : Bounded r) (i : Nat) : containsIndex r i = .ok (r.containsIndex i) := by
  unfold containsIndex IndexRange.containsIndex
  by_cases hi : i ≤ maxIndex ∧ r.inWindow i = true
  · have hmax : (maxIndex : Int) < 2 ^ 63 := by decide
    have hfirst := h.first_mem
    have hsub : sub i r.first = .ok (i - r.first) := sub_of_nonneg (by omega) (by omega) hfirst.1 hfirst.2
    rw [if_pos hi, hsub, ok_bind, rem_eq_zero (by omega) (by omega) r.step_ne_zero]
    simp only [hi.1, hi.2, decide_true, Bool.true_and]
  · rw [if_neg hi]
    have hnot : (decide (i ≤ maxIndex) && r.inWindow i) = false := by
      rw [← Bool.not_eq_true, Bool.and_eq_true, decide_eq_true_eq]
      exact hi
    rw [hnot]
    rfl

/-! ### Walking -/

/-- A step from an index leads out of the range of signed integers only upwards, past the largest index. -/
private theorem walk_eq (h : Bounded r) (n : Nat) {i : Int} (hi : i < 2 ^ 63) :
    walk r n (some i) = .ok (r.walk n i) := by
  have hmax : (maxIndex : Int) + 1 = 2 ^ 63 := by decide
  induction n generalizing i with
  | zero => rfl
  | succ n ih =>
    rw [walk, IndexRange.walk, next]
    by_cases hw : r.inWindow i = true
    · have h0 : 0 ≤ i := by
        have := (IndexRange.inWindow_iff.1 hw).1
        omega
      have hstep := h.step_mem
      have hrest : walk r n (add i r.step).toOption = .ok (r.walk n (i + r.step)) := by
        by_cases hnext : i + r.step < 2 ^ 63
        · rw [add, signed_eq_ok ⟨by omega, hnext⟩]
          exact ih hnext
        · -- there is no next position, and the walk ends there as well
          have hadd : (add i r.step).toOption = none := by
            rw [add, signed, if_neg fun hs => hnext hs.2]
            rfl
          have hend : r.walk n (i + r.step) = [] := by
            cases n with
            | zero => rfl
            | succ n => rw [IndexRange.walk, if_neg (by simp; omega)]
          rw [hadd, hend]
          cases n <;> rfl
      rw [if_pos ⟨hw, h0⟩, if_pos (by simp [hw]; omega)]
      show (do return i.toNat :: (← walk r n (add i r.step).toOption)) = _
      rw [hrest]
      rfl
    · rw [if_neg fun hc => hw hc.1, if_neg (by simp [hw])]
      rfl

theorem take_eq (h : Bounded r) (n : Nat) : take r n = .ok (r.take n) := walk_eq h n h.first_mem.2

/-! ### Containment of ranges -/

private theorem left_le_right {right : Int} (hne : s.count ≠ some 0) (hright : s.right = some right) :
    s.left ≤ right := by
  by_contra hlt
  refine hne ?_
  rw [IndexRange.count, hright, Option.map_some, if_pos (by omega)]

theorem staysAbove_eq (hs : Bounded s) (hne : s.count ≠ some 0) (r : IndexRange) :
    staysAbove r s = .ok (decide (r.left ≤ s.lowest)) := by
  unfold staysAbove IndexRange.lowest
  cases hright : s.right with
  | none =>
    have hup := s.ascending_of_open hright
    by_cases hlt : s.left < r.left
    · rw [if_pos hlt, if_pos hup]
      exact congrArg _ (decide_eq_false (p := (r.left : Int) ≤ s.left) (by omega)).symm
    · rw [if_neg hlt]
      exact congrArg _ (decide_eq_true (p := (r.left : Int) ≤ s.left) (by omega)).symm
  | some right =>
    have hle := left_le_right hne hright
    have hmem := hs.right_mem right hright
    obtain ⟨h0, hback⟩ := ediv_mul_mem (w := right - s.left) (by omega) (natAbs_step_pos s)
    by_cases hlt : s.left < r.left
    · rw [if_pos hlt]
      by_cases hup : 0 < s.step
      · simp only [hup, ↓reduceIte]
        rw [decide_eq_false (by omega)]
        rfl
      · obtain ⟨hsub, hdiv, hmul⟩ := hs.width hright hle (natAbs_step_pos s)
        have hlowest := sub_of_nonneg (a := right) (by omega) hmem.2 h0 (by omega)
        simp only [hup, ↓reduceIte, hs.abs_step, hsub, ok_bind, hdiv, hmul, hlowest]
        rfl
    · rw [if_neg hlt]
      have hlow : (r.left : Int) ≤
          if 0 < s.step then (s.left : Int) else right - (right - s.left) / s.step.natAbs * s.step.natAbs := by
        split <;> omega
      simp only [hlow, decide_true]
      rfl

theorem staysBelow_eq (hs : Bounded s) (hne : s.count ≠ some 0) (r : IndexRange) :
    staysBelow r s = .ok (r.reaches s.highest) := by
  unfold staysBelow IndexRange.reaches IndexRange.highest
  cases hr : r.right with
  | none => rfl
  | some right =>
    cases hright : s.right with
    | none => rfl
    | some right' =>
      have hle := left_le_right hne hright
      have hmem := hs.right_mem right' hright
      simp only [Option.map_some]
      by_cases hup : 0 < s.step
      · obtain ⟨h0, hend⟩ := ediv_mul_mem (w := right' - s.left) (by omega) hup
        by_cases hlast : right' ≤ right
        · simp only [hlast, hup, ↓reduceIte]
          rw [decide_eq_true (by omega)]
          rfl
        · obtain ⟨hsub, hdiv, hmul⟩ := hs.width hright hle hup
          have hhighest : add s.left ((right' - s.left) / s.step * s.step) = .ok _ :=
            signed_eq_ok_of_nonneg (by omega) (by omega)
          have hdown : ¬s.step < 0 := by omega
          simp only [hlast, hup, hdown, ↓reduceIte, hsub, ok_bind, hdiv, hmul, hhighest]
          rfl
      · have hdown : s.step < 0 := by
          have := s.step_ne_zero
          omega
        by_cases hlast : right' ≤ right
        · simp only [hlast, hup, ↓reduceIte, decide_true]
          rfl
        · simp only [hlast, hup, hdown, ↓reduceIte, decide_false]
          rfl

/-- The walk through a range of one index begins with it. -/
private theorem next_of_count_eq_one (hs : Bounded s) (hone : s.count = some 1) :
    ∃ position, next s (some s.first) = .ok (some (s.first.toNat, position)) := by
  have hmem : s.Mem s.first.toNat := (IndexRange.mem_iff_of_count_eq_one hone).2 rfl
  have hw := hmem.1
  rw [Int.toNat_of_nonneg hs.first_mem.1] at hw
  exact ⟨_, if_pos ⟨hw, hs.first_mem.1⟩⟩

private theorem containsWalk_eq (hr : Bounded r) (hs : Bounded s) (hne : s.count ≠ some 0) :
    containsWalk r s = .ok (decide (r.step ∣ s.step) && decide (r.left ≤ s.lowest) && r.reaches s.highest &&
      decide (r.step ∣ s.first - r.first)) := by
  have hrem : rem s.step.natAbs r.step.natAbs = .ok ((s.step.natAbs : Int).tmod r.step.natAbs) := by
    have hmem := hs.step_mem
    have hpos := natAbs_step_pos r
    exact rem_eq_ok (by omega) (by omega) (by omega)
  have hsteps : (s.step.natAbs : Int).tmod r.step.natAbs = 0 ↔ r.step ∣ s.step := by
    rw [← Int.dvd_iff_tmod_eq_zero, Int.natCast_dvd_natCast, Int.natAbs_dvd_natAbs]
  have hfirst : sub s.first r.first = .ok (s.first - r.first) :=
    sub_of_nonneg hs.first_mem.1 hs.first_mem.2 hr.first_mem.1 hr.first_mem.2
  unfold containsWalk
  rw [hs.abs_step, hr.abs_step, ok_bind, ok_bind, hrem, ok_bind]
  by_cases hd : r.step ∣ s.step
  · have hr0 := hr.first_mem
    have hs0 := hs.first_mem
    rw [if_neg (not_not.2 (hsteps.2 hd)), staysAbove_eq hs hne, ok_bind, staysBelow_eq hs hne, ok_bind, hfirst, ok_bind,
      rem_eq_zero (by omega) (by omega) r.step_ne_zero, decide_eq_true hd]
    cases decide ((r.left : Int) ≤ s.lowest) <;> cases r.reaches s.highest <;> rfl
  · rw [if_pos fun h => hd (hsteps.1 h), decide_eq_false hd]
    rfl

theorem containsRange_eq (hr : Bounded r) (hs : Bounded s) : containsRange r s = .ok (r.containsRange s) := by
  unfold containsRange IndexRange.containsRange
  rw [count_eq hs, ok_bind]
  rcases hn : s.count with _ | _ | _ | m
  · exact containsWalk_eq hr hs (by rw [hn]; simp)
  · rfl
  · obtain ⟨position, hnext⟩ := next_of_count_eq_one hs hn
    simp only [hnext, ok_bind]
    exact containsIndex_eq hr _
  · exact containsWalk_eq hr hs (by rw [hn]; simp)

end PathContainment.Machine
