import PathContainment.Path.Basic
import PathContainment.Proofs.Element.Transitivity
import PathContainment.Proofs.Sequence.Layout
import PathContainment.Proofs.Sequence.Meets

/-!
# Transitivity of the containment of paths

If a path contains a second one and the second a third, a layout of the first along the third is composed of the two
layouts. Its pairs are composed ones, so that the containment is not refuted, and that it holds if the third path has
no opaque indexes (`Path.contains_transitive`). For concrete paths this says that the verdict `holds` is sound. The
indexes of the second and the third path have to be ones that an array can have, as those of all paths that are read or
built are.
-/

namespace PathContainment

namespace Element

/-- The element is the root or a single child with a known name or index. -/
def IsConcrete : Element → Prop
  | root | property _ | index _ => True
  | _ => False

theorem IsConcrete.indexesKnown {e : Element} (h : e.IsConcrete) : e.IndexesKnown := by
  cases e <;> first | exact trivial | exact absurd h id

variable {e d c : Element}

private theorem IndexesKnown.underlying (h : e.IndexesKnown) : e.underlying.IndexesKnown := by
  cases e <;> exact h

/-- The containment in the pairs of composed layouts. -/
theorem meets_trans (he : e.Valid) (hd : d.Valid) (hdr : d.InReach) (hc : c.Valid) (hcr : c.InReach)
    (hed : e.meets d = .holds) (hdc : d.meets c = .holds) :
    e.meets c ≠ .fails ∧ (c.IndexesKnown → e.meets c = .holds) := by
  have hde := isDescent_of_meets (e := e) (c := d) (by rw [hed]; decide)
  have hcd := isDescent_of_meets (e := d) (c := c) (by rw [hdc]; decide)
  rw [meets_eq_contains_underlying hde] at hed
  rw [meets_eq_contains_underlying hcd] at hdc
  rw [meets_eq_contains_underlying fun h => hde (hcd h)]
  rcases contains_trans he.underlying.2 hd.underlying.2 hd.underlying.1 hdr.underlying hc.underlying.1
    hcr.underlying hed hdc with h | ⟨h, hunknown⟩
  · rw [h]
    exact ⟨by decide, fun _ => rfl⟩
  · rw [h]
    exact ⟨by decide, fun hknown => absurd hknown.underlying hunknown⟩

end Element

namespace Path

variable {s₁ s₂ s₃ : Scope}

/-- The containment of paths is transitive up to opaque indexes, and the verdict `holds` is right for all concrete
paths. -/
theorem contains_transitive {p : Path s₁} {q : Path s₂} {r : Path s₃} (hq : ∀ e ∈ q.elements, e.InReach)
    (hr : ∀ e ∈ r.elements, e.InReach) (hpq : p.contains q = .holds) (hqr : q.contains r = .holds) :
    p.contains r ≠ .fails ∧
      ((∀ e ∈ r.elements, e.IndexesKnown) → p.contains r = .holds) ∧
      ((∀ e ∈ r.elements, e.IsConcrete) → p.contains r = .holds) := by
  have hlpq := Sequence.contains_eq_holds_iff.1 hpq
  have hlqr := Sequence.contains_eq_holds_iff.1 hqr
  have hdescent : ∀ e d : Element, e.meets d = .holds → d.isDescent = true → e.isDescent = true := by
    intro e d hed
    exact Element.isDescent_of_meets (by rw [hed]; decide)
  have hmeets : ∀ e ∈ p.elements, ∀ d ∈ q.elements, ∀ c ∈ r.elements, e.meets d = .holds → d.meets c = .holds →
      e.meets c ≠ .fails ∧ (c.IndexesKnown → e.meets c = .holds) := by
    intro e he d hd c hc
    exact Element.meets_trans (p.valid.valid_of_mem e he) (q.valid.valid_of_mem d hd) (hq d hd)
      (r.valid.valid_of_mem c hc) (hr c hc)
  have hholds : (∀ e ∈ r.elements, e.IndexesKnown) → p.contains r = .holds := by
    intro hknown
    refine Sequence.contains_eq_holds_iff.2 (hlpq.comp hlqr hdescent ?_)
    intro e he d hd c hc hed hdc
    exact (hmeets e he d hd c hc hed hdc).2 (hknown c hc)
  refine ⟨Sequence.contains_ne_fails_iff.2 (hlpq.comp hlqr hdescent ?_), hholds, ?_⟩
  · intro e he d hd c hc hed hdc
    exact (hmeets e he d hd c hc hed hdc).1
  · intro hconcrete
    exact hholds fun e he => (hconcrete e he).indexesKnown

/-- The path `$..[0:10]` contains `$.a..[2:8:2]`, which contains `$.a.b[6]`. -/
theorem contains_transitive_through_descent :
    let p : AnyPath :=
      { elements := [.root, .descent (.slice { start := some 0, stop := some 10, step := 1, step_ne_zero := by decide })]
        valid := by decide, admitted := rfl }
    let q : AnyPath :=
      { elements := [.root, .property "a",
          .descent (.slice { start := some 2, stop := some 8, step := 2, step_ne_zero := by decide })]
        valid := by decide, admitted := rfl }
    let r : AnyPath :=
      { elements := [.root, .property "a", .property "b", .index 6], valid := by decide, admitted := rfl }
    (∀ e ∈ q.elements, e.InReach) ∧ (∀ e ∈ r.elements, e.InReach) ∧
      p.contains q = .holds ∧ q.contains r = .holds ∧ p.contains r = .holds := by
  intro p q r
  have hq : ∀ e ∈ q.elements, e.InReach := by simp [q, Element.InReach]
  have hr : ∀ e ∈ r.elements, e.InReach := by simp [r, Element.InReach, maxIndex]
  have hpq : p.contains q = .holds := by decide +kernel
  have hqr : q.contains r = .holds := by decide +kernel
  exact ⟨hq, hr, hpq, hqr, (contains_transitive hq hr hpq hqr).2.2 (by simp [r, Element.IsConcrete])⟩

end Path

end PathContainment
