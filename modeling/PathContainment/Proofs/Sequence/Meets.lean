import PathContainment.Sequence.Containment

/-!
# Pairs of a layout

In a layout a recursive descent has found its place, so that a pair is compared by what the two elements are without
recursive descent (`meets_eq_contains_underlying`). The one exception is a recursive descent of the candidate at an
element that is none: it contains more than a single step and fails (`isDescent_of_meets`).
-/

namespace PathContainment.Element

variable {e c : Element}

theorem meets_eq_contains (he : e.isDescent = false) (c : Element) : e.meets c = e.contains c := by
  cases e with
  | descent inner => cases he
  | _ => rfl

theorem contains_eq_fails_of_isDescent (he : e.isDescent = false) (hc : c.isDescent = true) :
    e.contains c = .fails := by
  cases c with
  | descent other =>
    cases e with
    | descent inner => cases he
    | _ => rfl
  | _ => cases hc

/-- Only a recursive descent can be laid out on a recursive descent. -/
theorem isDescent_of_meets (h : e.meets c ≠ .fails) (hc : c.isDescent = true) : e.isDescent = true := by
  cases he : e.isDescent with
  | true => rfl
  | false =>
    rw [meets_eq_contains he, contains_eq_fails_of_isDescent he hc] at h
    exact absurd rfl h

theorem underlying_of_not_isDescent (he : e.isDescent = false) : e.underlying = e := by
  cases e with
  | descent inner => cases he
  | _ => rfl

theorem meets_eq_contains_underlying (h : c.isDescent = true → e.isDescent = true) :
    e.meets c = e.underlying.contains c.underlying := by
  cases he : e.isDescent with
  | true =>
    cases e with
    | descent inner => cases c <;> rfl
    | _ => cases he
  | false =>
    have hc : c.isDescent = false := by
      cases hc : c.isDescent with
      | true => rw [h hc] at he; cases he
      | false => rfl
    rw [meets_eq_contains he, underlying_of_not_isDescent he, underlying_of_not_isDescent hc]

theorem Valid.underlying (h : e.Valid) : e.underlying.Valid ∧ e.underlying.isDescent = false := by
  cases e with
  | descent inner =>
    obtain ⟨-, hd, hv⟩ := valid_descent_iff.1 h
    exact ⟨hv, hd⟩
  | _ => exact ⟨h, rfl⟩

end PathContainment.Element
