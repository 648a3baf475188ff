import PathContainment.Path.Basic
import PathContainment.Proofs.Sequence.Layout

/-!
# Containment of joined paths

Two layouts, one behind the other, are a layout of the joined sequences, whatever recursive descents there are at the
seam or inside the parts. So the verdict on joined sequences is at least the lesser one of those on the parts
(`Sequence.le_contains_append`): appending contained paths to contained paths leads to contained paths
(`Path.contains_appendPath`). It may be greater, because the joined sequences have layouts that go across the seam.
-/

namespace PathContainment

namespace Sequence

/-- A bound of the verdicts on two parts is one of the verdict on the joined sequences. -/
theorem le_contains_append {v : Verdict} {p q r s : List Element} (hpq : v ≤ contains p q) (hrs : v ≤ contains r s) :
    v ≤ contains (p ++ r) (q ++ s) := by
  by_cases hv : v = .fails
  · rw [hv]
    exact Verdict.fails_le
  · rw [le_contains_iff hv] at hpq hrs ⊢
    exact hpq.append hrs

end Sequence

namespace Path

variable {scope scope' : Scope}

/-- Appending keeps containment. If it holds between two paths and between the relative paths that are appended to
them, then it holds between the joined paths, and if neither of the two is refuted, it is not refuted for them. -/
theorem contains_appendPath (p : Path scope) (q : Path scope') (r s : Path .relative) :
    (p.contains q = .holds → r.contains s = .holds → (p.appendPath r).contains (q.appendPath s) = .holds) ∧
    (p.contains q ≠ .fails → r.contains s ≠ .fails → (p.appendPath r).contains (q.appendPath s) ≠ .fails) := by
  have hle : ∀ v, v ≤ p.contains q → v ≤ r.contains s → v ≤ (p.appendPath r).contains (q.appendPath s) :=
    fun v hpq hrs => Sequence.le_contains_append hpq hrs
  constructor
  · intro hpq hrs
    exact Verdict.holds_le.1 (hle .holds (Verdict.holds_le.2 hpq) (Verdict.holds_le.2 hrs))
  · intro hpq hrs
    exact Verdict.unknown_le.1 (hle .unknown (Verdict.unknown_le.2 hpq) (Verdict.unknown_le.2 hrs))

/-- The path `$..a` contains `$.x.a`, and `..b[*]` contains `c.b[1]`, so that `$..a..b[*]` contains `$.x.a.c.b[1]`.
Whether `$..a[(@.length-1)]` contains `$.x.a[3]` cannot be told, and the joined paths need not be refuted either. -/
theorem contains_appendPath_across_descent :
    let p : AnyPath := { elements := [.root, .descent (.property "a")], valid := by decide, admitted := rfl }
    let q : AnyPath := { elements := [.root, .property "x", .property "a"], valid := by decide, admitted := rfl }
    let p' : AnyPath :=
      { elements := [.root, .descent (.property "a"), .expression "@.length-1"], valid := by decide, admitted := rfl }
    let q' : AnyPath :=
      { elements := [.root, .property "x", .property "a", .index 3], valid := by decide, admitted := rfl }
    let r : Path .relative :=
      { elements := [.descent (.property "b"), .anyIndex], valid := by decide, admitted := rfl }
    let s : Path .relative :=
      { elements := [.property "c", .property "b", .index 1], valid := by decide, admitted := rfl }
    (p.appendPath r).contains (q.appendPath s) = .holds ∧ (p'.appendPath r).contains (q'.appendPath s) ≠ .fails := by
  intro p q p' q' r s
  have hpq : p.contains q = .holds ∧ p'.contains q' ≠ .fails := by decide +kernel
  have hrs : r.contains s = .holds := by decide +kernel
  refine ⟨(contains_appendPath p q r s).1 hpq.1 hrs, (contains_appendPath p' q' r s).2 hpq.2 ?_⟩
  rw [hrs]
  decide

end Path

/-- The path `$..a` does not contain `$.a.b`, yet with `..c` and `c` appended the joined path contains the other. -/
example :
    Sequence.contains [.root, .descent (.property "a")] [.root, .property "a", .property "b"] = .fails ∧
    Sequence.contains [.root, .descent (.property "a"), .descent (.property "c")]
      [.root, .property "a", .property "b", .property "c"] = .holds := by
  decide +kernel

end PathContainment
