import PathContainment.IndexRange
import PathContainment.Element.Kind

/-!
# Array slices

A slice `[start:stop:step]` as it is written: its bounds may be missing or count from the end of the array, and
only the step `0` is excluded. An ascending slice without a start begins at `0`, and `Slice.same` identifies the
two ways of writing that; all other differences of writing count. `Slice.range` gives the covered indexes where
they are known.
-/

namespace PathContainment

structure Slice where
  start : Option Int64
  stop : Option Int64
  step : Int64
  step_ne_zero : step ≠ 0
  deriving DecidableEq

namespace Slice

def make (start stop : Option Int64) (step : Int64) : Except PathError Slice :=
  if h : step = 0 then .error .zeroStep else .ok { start, stop, step, step_ne_zero := h }

/-- The start, with the default of an ascending slice filled in. -/
def effectiveStart (s : Slice) : Option Int64 :=
  if 0 < s.step then some (s.start.getD 0) else s.start

/-- Two slices are the same when they differ at most in leaving out the default start. -/
def same (s t : Slice) : Bool :=
  s.effectiveStart = t.effectiveStart && s.stop = t.stop && s.step = t.step

instance : BEq Slice := ⟨same⟩

/-- The covered indexes, where they do not depend on the length of the array. -/
def range (s : Slice) : Option IndexRange := (IndexRange.ofBounds s.start s.stop s.step).toOption

/-- The slice `[-1:]` of the last array item. -/
def isLast (s : Slice) : Bool := s.start = some (-1) && s.stop = none && s.step = 1

/-- The number of covered indexes, absent when it is infinite or unknown. -/
def count (s : Slice) : Option Nat := if s.isLast then some 1 else s.range.bind (·.count)

/-- The slice is known to cover all indexes. -/
def isEvery (s : Slice) : Bool := s.range.any (·.isEvery)

/-- The slice covers the index, where that is known. -/
def containsIndex (s : Slice) (i : Nat) : Option Bool := s.range.map (·.containsIndex i)

end Slice

end PathContainment
