import PathContainment.Proofs.Machine.IndexRange
import PathContainment.Proofs.Slice.EvenlySpaced

/-!
# Evenly spaced lists on a machine

Whether a list of indexes is evenly spaced is found out by subtracting neighbours. Indexes may be larger than any signed
integer; the search ends at the first one that is, before anything is calculated with it. The differences of the others
are in range, and only the end of the slice, which lies after the last index, may be missing (`ofEvenlySpaced?_eq`).

With this no function on ranges and lists of indexes is left that could trap (`never_traps`).
-/

namespace PathContainment.Machine

/-! ### The search step by step -/

/-- The last of the indexes that go on after `last`, if the distance between neighbours is the step everywhere. -/
def lastAfter (step last : Int) : List Nat → Except Trap (Option Int)
  | [] => return some last
  | i :: rest =>
    if i ≤ maxIndex then do
      if (← sub i last) = step then lastAfter step i rest else return none
    else return none

/-- The slice that covers an evenly spaced list of at least three indexes. -/
def ofEvenlySpaced? (l : List Nat) : Except Trap (Option Slice) :=
  match l with
  | i :: j :: k :: rest =>
    if i ≤ maxIndex ∧ j ≤ maxIndex then do
      let step ← sub j i
      match ← lastAfter step j (k :: rest) with
      | none => return none
      | some last =>
        let start := if i = 0 then none else some (Int64.ofInt i)
        return (Slice.make start ((add last 1).toOption.map Int64.ofInt) (Int64.ofInt step)).toOption
    else return none
  | _ => return none

/-! ### What it gives -/

private theorem sub_natCast {i j : Nat} (hi : i ≤ maxIndex) (hj : j ≤ maxIndex) : sub j i = .ok (j - i) := by
  have hmax : (maxIndex : Int) < 2 ^ 63 := by decide
  exact sub_of_nonneg (by omega) (by omega) (by omega) (by omega)

private theorem lastAfter_eq {last d : Nat} {rest : List Nat} (hinc : (last :: rest).Pairwise (· < ·))
    (hlast : last ≤ maxIndex) :
    lastAfter d last rest =
      .ok (if rest.all (· ≤ maxIndex) && spacedBy d (last :: rest) then some (rest.getLastD last : Int) else none) := by
  induction rest generalizing last with
  | nil => rfl
  | cons i rest ih =>
    have hlt : last < i := (List.pairwise_cons.1 hinc).1 i (List.mem_cons_self ..)
    rw [lastAfter, List.all_cons, spacedBy]
    by_cases hi : i ≤ maxIndex
    · rw [if_pos hi, sub_natCast hlast hi, ok_bind, decide_eq_true hi]
      by_cases hd : i = last + d
      · rw [if_pos (by omega), ih (List.pairwise_cons.1 hinc).2 hi, decide_eq_true hd, List.getLastD_cons]
        rfl
      · rw [if_neg (by omega), decide_eq_false hd, Bool.false_and, Bool.and_false]
        rfl
    · rw [if_neg hi, decide_eq_false hi]
      rfl

/-- The end of the slice is missing exactly when no signed integer lies after the last index. -/
private theorem add_one_natCast {last : Nat} (h : last ≤ maxIndex) :
    (add last 1).toOption.map Int64.ofInt = Slice.word? (last + 1) := by
  have hmax : (maxIndex : Int) + 1 = 2 ^ 63 := by decide
  rw [add, signed, Slice.word?]
  by_cases hlast : last + 1 ≤ maxIndex
  · rw [if_pos ⟨by omega, by omega⟩, if_pos hlast]
    rfl
  · rw [if_neg fun hs => hlast (by have := hs.2; omega), if_neg hlast]
    rfl

theorem ofEvenlySpaced?_eq {l : List Nat} (hinc : l.Pairwise (· < ·)) :
    ofEvenlySpaced? l = .ok (Slice.ofEvenlySpaced? l) := by
  unfold ofEvenlySpaced? Slice.ofEvenlySpaced?
  match l, hinc with
  | [], _ => rfl
  | [_], _ => rfl
  | [_, _], _ => rfl
  | i :: j :: k :: rest, hinc =>
    have htail := (List.pairwise_cons.1 hinc).2
    have hij : i < j := (List.pairwise_cons.1 hinc).1 j (List.mem_cons_self ..)
    have hall : ∀ l : List Nat, (i :: j :: l).all (· ≤ maxIndex) =
        (decide (i ≤ maxIndex) && (decide (j ≤ maxIndex) && l.all (· ≤ maxIndex))) := fun _ => rfl
    simp only [hall]
    by_cases hle : i ≤ maxIndex ∧ j ≤ maxIndex
    · have hstep : (j : Int) - i = (j - i : Nat) := by omega
      have hspaced : spacedBy (j - i) (i :: j :: k :: rest) = spacedBy (j - i) (j :: k :: rest) := by
        rw [spacedBy, decide_eq_true (by omega), Bool.true_and]
      rw [if_pos hle, sub_natCast hle.1 hle.2, ok_bind, hstep, lastAfter_eq htail hle.2, ok_bind, hspaced,
        decide_eq_true hle.1, decide_eq_true hle.2, Bool.true_and, Bool.true_and]
      by_cases hc : ((k :: rest).all (· ≤ maxIndex) && spacedBy (j - i) (j :: k :: rest)) = true
      · have hmem : (k :: rest).getLastD j ≤ maxIndex := by
          rw [Bool.and_eq_true, List.all_eq_true] at hc
          have hlast : (k :: rest).getLastD j ∈ j :: k :: rest := List.getLastD_mem_cons
          rcases List.mem_cons.1 hlast with hlast | hlast
          · rw [hlast]
            exact hle.2
          · exact of_decide_eq_true (hc.1 _ hlast)
        rw [if_pos hc, if_pos hc]
        simp only [add_one_natCast hmem]
        rfl
      · rw [if_neg hc, if_neg hc]
        rfl
    · rw [if_neg hle, if_neg (by simp; omega)]
      rfl

/-! ### No function traps -/

/-- No operation on machine integers that the functions on ranges and lists of indexes evaluate is without a result: for
all bounds, for all pairs of the ranges they make, for all indexes and for all sets of them, the functions give what the
same calculation gives with all integers. -/
theorem never_traps (start stop : Option Int64) (step : Int64) :
    ofBounds start stop step = .ok (IndexRange.ofBounds start stop step) ∧
    (∀ r, IndexRange.ofBounds start stop step = .ok r →
      count r = .ok r.count ∧ (∀ i, containsIndex r i = .ok (r.containsIndex i)) ∧
      (∀ n, take r n = .ok (r.take n)) ∧
      ∀ start' stop' step' s, IndexRange.ofBounds start' stop' step' = .ok s →
        containsRange r s = .ok (r.containsRange s)) ∧
    ∀ is : SortedSet Nat, ofEvenlySpaced? is.toList = .ok (Slice.ofEvenlySpaced? is.toList) := by
  refine ⟨ofBounds_eq start stop step, fun r hr => ?_, fun is => ofEvenlySpaced?_eq is.increasing⟩
  have h := bounded_of_ofBounds hr
  exact ⟨count_eq h, containsIndex_eq h, take_eq h, fun _ _ _ _ hs => containsRange_eq h (bounded_of_ofBounds hs)⟩

/-- The slice `[9223372036854775806::-9223372036854775806]` goes down to `0` in one step, so that it does not lie in the
slice `[1:]`; with a step less by one it would. -/
theorem never_traps_of_huge_step :
    ∃ r s, IndexRange.ofBounds (some 1) none 1 = .ok r ∧
      IndexRange.ofBounds (some 9223372036854775806) none (-9223372036854775806) = .ok s ∧
      count s = .ok (some 2) ∧ containsRange r s = .ok false := by
  obtain ⟨r, hr⟩ : ∃ r, IndexRange.ofBounds (some 1) none 1 = .ok r := ⟨_, rfl⟩
  obtain ⟨s, hs⟩ : ∃ s, IndexRange.ofBounds (some 9223372036854775806) none (-9223372036854775806) = .ok s := ⟨_, rfl⟩
  have hvalues : s.count = some 2 ∧ r.containsRange s = false := by
    cases hr
    cases hs
    decide
  obtain ⟨hcount, -⟩ := (never_traps _ _ _).2.1 s hs
  obtain ⟨-, -, -, hcontains⟩ := (never_traps _ _ _).2.1 r hr
  refine ⟨r, s, hr, hs, ?_, ?_⟩
  · rw [hcount, hvalues.1]
  · rw [hcontains _ _ _ _ hs, hvalues.2]

end PathContainment.Machine
