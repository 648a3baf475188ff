import PathContainment.Proofs.Element.Opacity
import PathContainment.Proofs.Pattern.Set
import PathContainment.Proofs.Sequence.Layout
import PathContainment.Proofs.Sequence.Meets

/-!
# Definite answers

Where no element is opaque, the answers of paths and of sets of paths are definite (`PatternSet.definite_of_run`).
The verdict on a recursive descent and any other element is unknown, but that question never comes up: in a layout a
recursive descent has found its place, so that its inner element is asked instead, and a recursive descent of the
candidate at an element that is none is refused.
-/

namespace PathContainment

/-- The pairs of a layout leave the verdict unknown only where one of the two elements is opaque. -/
theorem Element.meets_ne_unknown {e c : Element} (hvalid : e.Valid) (he : ¬e.IsOpaque) (hc : ¬c.IsOpaque) :
    e.meets c ≠ .unknown := by
  intro h
  by_cases hd : c.isDescent = true ∧ e.isDescent = false
  · rw [meets_eq_contains hd.2, contains_eq_fails_of_isDescent hd.2 hd.1] at h
    cases h
  · have hde : c.isDescent = true → e.isDescent = true := by simpa using hd
    rw [meets_eq_contains_underlying hde] at h
    rcases isOpaque_of_contains hvalid.underlying.2 h with ho | ho
    · exact he (isOpaque_underlying_iff.1 ho)
    · exact hc (isOpaque_underlying_iff.1 ho)

namespace Sequence

/-- Unknown verdicts on sequences come from unknown verdicts on their elements. -/
theorem contains_ne_unknown {p q : List Element} (h : ∀ e ∈ p, ∀ c ∈ q, e.meets c ≠ .unknown) :
    contains p q ≠ .unknown := by
  intro hu
  have hl : Layout (fun e c => e.meets c ≠ .fails) p q := contains_ne_fails_iff.1 (by rw [hu]; decide)
  have hholds : Layout (fun e c => e.meets c = .holds) p q :=
    hl.imp fun e he c hc hec => (Verdict.eq_holds_or_eq_unknown hec).resolve_right (h e he c hc)
  rw [contains_eq_holds_iff.2 hholds] at hu
  cases hu

/-- None of the elements is opaque, nor descends to an opaque one. -/
def Transparent (p : List Element) : Prop := ∀ e ∈ p, ¬e.IsOpaque

instance (p : List Element) : Decidable (Transparent p) := inferInstanceAs (Decidable (∀ e ∈ p, ¬e.IsOpaque))

end Sequence

open Sequence (Transparent)

theorem Path.contains_ne_unknown {scope scope' : Scope} {p : Path scope} {q : Path scope'}
    (hp : Transparent p.elements) (hq : Transparent q.elements) : p.contains q ≠ .unknown :=
  Sequence.contains_ne_unknown fun e he c hc => Element.meets_ne_unknown (p.valid.valid_of_mem e he) (hp e he) (hq c hc)

namespace PatternSet

variable {P : Type u} [Pattern P] {set : PatternSet P} {q : AnyPath}

theorem Consistent.contains_ne_unknown (h : set.Consistent)
    (hset : ∀ x ∈ set.toList, Transparent (Pattern.path x).elements) (hq : Transparent q.elements) :
    set.contains q ≠ .unknown := by
  intro hu
  rw [contains_eq_anyOf q h] at hu
  obtain ⟨x, hx, hxq⟩ := (Verdict.anyOf_eq_unknown_iff.1 hu).2
  exact Path.contains_ne_unknown (hset x hx) hq hxq

/-- A set lists a pattern exactly when it answers that the path is contained. -/
theorem Consistent.containing_ne_nil_iff (h : set.Consistent) :
    set.containing q ≠ [] ↔ set.contains q = .holds := by
  have hmem : ∀ x, x ∈ set.containing q ↔ x ∈ set.toList ∧ (Pattern.path x).contains q = .holds := by
    intro x
    rw [(containing_perm q h).mem_iff, List.mem_filter, decide_eq_true_eq]
  rw [contains_eq_anyOf q h, Verdict.anyOf_eq_holds_iff]
  constructor
  · intro hne
    obtain ⟨x, hx⟩ := List.exists_mem_of_ne_nil _ hne
    exact ⟨x, (hmem x).1 hx⟩
  · rintro ⟨x, hx⟩
    exact List.ne_nil_of_mem ((hmem x).2 hx)

/-- Unknown answers come from opaque elements only. If none of the elements of a path is opaque, every path of which
the same is true either contains it or does not, and so does every set of such patterns, whatever run of commands has
led to it; it does exactly when it lists a pattern that contains the path. -/
theorem definite_of_run [LawfulPattern P] (hq : Transparent q.elements) :
    (∀ p : AnyPath, Transparent p.elements → p.contains q = .holds ∨ p.contains q = .fails) ∧
    ∀ commands : List (Command P), (∀ x ∈ (run commands).toList, Transparent (Pattern.path x).elements) →
      ((run commands).contains q = .holds ∨ (run commands).contains q = .fails) ∧
      ((run commands).contains q = .holds ↔ (run commands).containing q ≠ []) := by
  have hdefinite : ∀ {v : Verdict}, v ≠ .unknown → v = .holds ∨ v = .fails := by
    intro v hv
    by_cases hf : v = .fails
    · exact .inr hf
    · exact .inl ((Verdict.eq_holds_or_eq_unknown hf).resolve_right hv)
  refine ⟨fun p hp => hdefinite (Path.contains_ne_unknown hp hq), fun commands hset => ?_⟩
  have h : (run commands).Consistent := consistent_run commands
  exact ⟨hdefinite (h.contains_ne_unknown hset hq), h.containing_ne_nil_iff.symm⟩

/-- With the patterns `$..[0:6:2]` and `$.a..b` left after a run, the path `$.a..b` is contained in one of them, and
`$.a..c` in none. -/
theorem definite_of_run_after_removal :
    let a : AnyPath :=
      { elements := [.root, .property "a", .expression "@.length-1"], valid := by decide, admitted := rfl }
    let b : AnyPath :=
      { elements :=
          [.root, .descent (.slice { start := some 0, stop := some 6, step := 2, step_ne_zero := by decide })]
        valid := by decide
        admitted := rfl }
    let c : AnyPath :=
      { elements := [.root, .property "a", .descent (.property "b")], valid := by decide, admitted := rfl }
    let q : AnyPath :=
      { elements := [.root, .property "a", .descent (.property "c")], valid := by decide, admitted := rfl }
    let set := run [.extend [a, b, c], .remove a]
    set.toList = [b, c] ∧ set.contains c = .holds ∧ set.contains q = .fails := by
  intro a b c q set
  have hlist : set.toList = [b, c] := by decide +kernel
  have hset : ∀ x ∈ set.toList, Transparent (Pattern.path x).elements := by
    intro x hx
    rw [hlist] at hx
    rcases List.mem_pair.1 hx with rfl | rfl
    · show Transparent b.elements
      decide +kernel
    · show Transparent c.elements
      decide +kernel
  have hc : Transparent c.elements := by decide +kernel
  have hq : Transparent q.elements := by decide +kernel
  obtain ⟨-, hcontains⟩ := (definite_of_run (P := AnyPath) hc).2 _ hset
  obtain ⟨hdefinite, hne⟩ := (definite_of_run (P := AnyPath) hq).2 _ hset
  refine ⟨hlist, hcontains.2 (by decide +kernel), hdefinite.resolve_left fun hholds => ?_⟩
  exact hne.1 hholds (by decide +kernel)

end PatternSet

end PathContainment
