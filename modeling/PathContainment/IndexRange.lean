/-!
# Ranges of array indexes

A slice `[start:end:step]` covers every `step`-th index between two bounds. `IndexRange` keeps it as an inclusive
window `left … right`, which may be open upwards, together with the signed step; whether the window is walked
upwards or downwards is the sign of the step, and the walk begins at `IndexRange.first`.

Bounds and steps are read as 64-bit integers, and an array index is at most `maxIndex`. The arithmetic on ranges is
that of the integers; the places where the 64-bit limit shows are the conditions of `IndexRange.ofBounds` and the
comparisons with `maxIndex`.
-/

namespace PathContainment

/-- The largest index an array can have. -/
def maxIndex : Nat := 0x7FFFFFFFFFFFFFFF

/-- Why a slice covers no range of indexes that is known beforehand. -/
inductive RangeError where
  | zeroStep
  /-- A negative bound counts from the end of the array. -/
  | negativeBound (bound : Int64)
  /-- The walk goes down from the end of the array. -/
  | openDescending
  /-- The absolute value of the step is no 64-bit integer. -/
  | stepOverflow (step : Int64)
  /-- The index after the end is no 64-bit integer. -/
  | stopOverflow (stop : Int64)
  deriving DecidableEq, Repr

namespace RangeError

def message : RangeError → String
  | zeroStep => "slice step must not be zero"
  | negativeBound bound => s!"negative slice bound {bound} is relative to the array end"
  | openDescending => "descending slice without a start has no fixed first index"
  | stepOverflow step => s!"slice step {step} has no absolute value"
  | stopOverflow stop => s!"slice end {stop} is past the largest index"

end RangeError

/-- A window `left … right` of indexes, walked by `step`. A window that is open upwards is walked upwards. -/
structure IndexRange where
  left : Nat
  /-- The last index of the window, `-1` for the empty window of a slice that ends at `0`. -/
  right : Option Int
  step : Int
  step_ne_zero : step ≠ 0
  ascending_of_open : right = none → 0 < step
  deriving DecidableEq

namespace IndexRange

private theorem toInt_ne_zero {step : Int64} (h : step ≠ 0) : step.toInt ≠ 0 :=
  fun h0 => h (Int64.toInt_inj.1 h0)

private theorem not_ascending {right : Option Int} {step : Int} (h : right.isSome) :
    right = none → 0 < step := by
  rintro rfl; simp at h

/-- The range of a descending slice from `start` down to `left`. A slice without a start goes down from the end of
the array; its indexes are known only for the step `-1`, when they are all indexes from `left` upwards. -/
def descending (start : Option Int64) (left : Nat) (step : Int64) (hstep : step ≠ 0) :
    Except RangeError IndexRange :=
  match start with
  | some first =>
    .ok { left, right := some first.toInt, step := step.toInt, step_ne_zero := toInt_ne_zero hstep,
          ascending_of_open := not_ascending rfl }
  | none =>
    if step = -1 then
      .ok { left, right := none, step := 1, step_ne_zero := by decide, ascending_of_open := by decide }
    else .error .openDescending

/-- The first of the two bounds that is negative. -/
def negativeBound? (start stop : Option Int64) : Option Int64 :=
  (start.filter (· < 0)).or (stop.filter (· < 0))

/-- The range of the slice `[start:stop:step]`, whose end is exclusive. -/
def ofBounds (start stop : Option Int64) (step : Int64) : Except RangeError IndexRange :=
  if hstep : step = 0 then .error .zeroStep
  else if step = Int64.minValue then .error (.stepOverflow step)
  else match negativeBound? start stop with
    | some bound => .error (.negativeBound bound)
    | none =>
      if hup : 0 < step.toInt then
        .ok { left := (start.getD 0).toInt.toNat, right := stop.map (·.toInt - 1), step := step.toInt,
              step_ne_zero := toInt_ne_zero hstep, ascending_of_open := fun _ => hup }
      else match stop with
        | none => descending start 0 step hstep
        | some last =>
          if last = Int64.maxValue then .error (.stopOverflow last)
          else descending start (last.toInt + 1).toNat step hstep

/-- The index where the walk begins. -/
def first (r : IndexRange) : Int := if 0 < r.step then r.left else r.right.getD r.left

/-- The range consists of all array indexes. -/
def isEvery (r : IndexRange) : Bool := r.left = 0 && r.right.isNone && r.step = 1

/-- The number of indexes, absent when there are infinitely many. -/
def count (r : IndexRange) : Option Nat :=
  r.right.map fun (right : Int) => if right < r.left then 0 else ((right - r.left) / r.step.natAbs).toNat + 1

/-- The index lies in the window. -/
def inWindow (r : IndexRange) (i : Int) : Bool := r.left ≤ i && r.right.all (i ≤ ·)

def containsIndex (r : IndexRange) (i : Nat) : Bool :=
  i ≤ maxIndex && r.inWindow i && decide (r.step ∣ i - r.first)

/-! ### Containment of ranges -/

/-- The least index of a range that is not empty. -/
def lowest (r : IndexRange) : Int :=
  match r.right with
  | none => r.left
  | some right => if 0 < r.step then r.left else right - (right - r.left) / r.step.natAbs * r.step.natAbs

/-- The greatest index of a range that is not empty, absent when there is none. -/
def highest (r : IndexRange) : Option Int :=
  r.right.map fun (right : Int) => if 0 < r.step then r.left + (right - r.left) / r.step * r.step else right

/-- No index of a range with greatest index `highest` lies above the window. -/
def reaches (r : IndexRange) (highest : Option Int) : Bool :=
  match r.right, highest with
  | none, _ => true
  | some _, none => false
  | some right, some high => high ≤ right

/-- Every index of `s` is an index of `r`. A range of at least two indexes lies in another one when its extremes do,
when its step is a multiple of the other step, and when both walks meet the same residue class. -/
def containsRange (r s : IndexRange) : Bool :=
  match s.count with
  | some 0 => true
  | some 1 => r.containsIndex s.first.toNat
  | _ =>
    decide (r.step ∣ s.step) && r.left ≤ s.lowest && r.reaches s.highest && decide (r.step ∣ s.first - r.first)

/-! ### Walking a range -/

/-- At most `n` indexes of the walk, from index `i` on. The walk ends where it leaves the window or passes the
largest index. -/
def walk (r : IndexRange) : Nat → Int → List Nat
  | 0, _ => []
  | n + 1, i => if r.inWindow i && i ≤ maxIndex then i.toNat :: r.walk n (i + r.step) else []

/-- The first `n` indexes in the direction of the step. -/
def take (r : IndexRange) (n : Nat) : List Nat := r.walk n r.first

/-- The test holds for the `n` indexes of the walk from index `i` on. -/
def allFrom (r : IndexRange) (test : Nat → Bool) : Nat → Int → Bool
  | 0, _ => true
  | n + 1, i => test i.toNat && r.allFrom test n (i + r.step)

end IndexRange

end PathContainment
