import PathContainment.Proofs.Verdict
import PathContainment.Element.Containment

/-!
# Opaque elements

An expression, a filter and a slice whose indexes depend on the length of the array are opaque: what they describe
cannot be told from the element alone. Between elements without recursive descent, only an opaque one leaves the
verdict unknown (`isOpaque_of_contains`). The verdict on a recursive descent and anything else is unknown as well,
whatever the two are; this is not a matter of single elements.
-/

namespace PathContainment

namespace Slice

variable {s t : Slice}

/-! ### Slices without a known range -/

theorem range_eq_none_of_allIndexes {test : Nat → Bool} (h : s.allIndexes test = .unknown) : s.range = none := by
  unfold allIndexes at h
  split at h
  · assumption
  · split at h
    · cases h
    · exact absurd h Verdict.ofBool_ne_unknown

theorem range_eq_none_of_containsIndex {i : Nat} (h : Verdict.ofOption (s.containsIndex i) = .unknown) :
    s.range = none := by
  cases hr : s.range with
  | none => rfl
  | some r =>
    rw [containsIndex, hr] at h
    exact absurd h Verdict.ofBool_ne_unknown

theorem range_eq_none_of_containsIndexes {is : SortedSet Nat} (h : s.containsIndexes is = .unknown) :
    s.range = none := by
  unfold containsIndexes at h
  split at h
  · assumption
  · exact absurd h Verdict.ofBool_ne_unknown

theorem range_eq_none_of_containsSlice (h : s.containsSlice t = .unknown) : s.range = none ∨ t.range = none := by
  unfold containsSlice at h
  split at h
  · cases h
  · cases hs : s.range with
    | none => exact .inl rfl
    | some r =>
      cases ht : t.range with
      | none => exact .inr rfl
      | some r' =>
        rw [hs, ht] at h
        exact absurd h Verdict.ofBool_ne_unknown

end Slice

namespace Element

/-- What the element describes, or what it descends to, cannot be told from the element. -/
def IsOpaque : Element → Prop
  | expression _ | filter _ => True
  | slice s => s.range = none
  | descent inner => inner.IsOpaque
  | _ => False

instance decidableIsOpaque : (e : Element) → Decidable e.IsOpaque
  | expression _ | filter _ => isTrue trivial
  | slice s => inferInstanceAs (Decidable (s.range = none))
  | descent inner => decidableIsOpaque inner
  | root | property _ | anyProperty | properties _ | index _ | anyIndex | indexes _ => isFalse id

variable {a b e : Element}

theorem isOpaque_underlying_iff : e.underlying.IsOpaque ↔ e.IsOpaque := by
  cases e <;> exact Iff.rfl

/-- Only opaque elements leave the verdict unknown, if the pattern is no recursive descent. -/
theorem isOpaque_of_contains (ha : a.isDescent = false) (h : a.contains b = .unknown) :
    a.IsOpaque ∨ b.IsOpaque := by
  cases a with
  | root => exact absurd h Verdict.ofBool_ne_unknown
  | property name =>
    cases b with
    | property other => exact absurd h Verdict.ofBool_ne_unknown
    | properties names => exact absurd h Verdict.ofBool_ne_unknown
    | _ => cases h
  | anyProperty => cases b <;> cases h
  | properties names =>
    cases b with
    | property name => exact absurd h Verdict.ofBool_ne_unknown
    | properties others => exact absurd h Verdict.ofBool_ne_unknown
    | _ => cases h
  | index i =>
    cases b with
    | index j => exact absurd h Verdict.ofBool_ne_unknown
    | indexes js => exact absurd h Verdict.ofBool_ne_unknown
    | slice t => exact .inr (Slice.range_eq_none_of_allIndexes h)
    | expression text => exact .inr trivial
    | _ => cases h
  | anyIndex => cases b <;> cases h
  | indexes is =>
    cases b with
    | index j => exact absurd h Verdict.ofBool_ne_unknown
    | indexes js => exact absurd h Verdict.ofBool_ne_unknown
    | slice t => exact .inr (Slice.range_eq_none_of_allIndexes h)
    | expression text => exact .inr trivial
    | _ => cases h
  | slice s =>
    cases b with
    | index j => exact .inl (Slice.range_eq_none_of_containsIndex h)
    | anyIndex => exact absurd h Verdict.ofBool_ne_unknown
    | indexes js => exact .inl (Slice.range_eq_none_of_containsIndexes h)
    | slice t => exact Slice.range_eq_none_of_containsSlice h
    | expression text => exact .inr trivial
    | _ => cases h
  | expression text => exact .inl trivial
  | filter text => exact .inl trivial
  | descent inner => cases ha

end Element

end PathContainment
