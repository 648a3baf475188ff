import PathContainment.Path.Basic
import PathContainment.Proofs.Element.NormalFormContainment
import PathContainment.Proofs.Sequence.Layout
import PathContainment.Proofs.Sequence.Meets

/-!
# Containment of paths in normal form

Replacing the elements on both sides by others that give the same definite verdicts keeps a definite verdict on the
sequences (`Sequence.contains_map_of_definite`): a layout with pairs that hold is one of the new sequences as well, and
a layout of the new sequences with no pair that fails comes from such a layout of the old ones. With the normal forms
of elements this gives `Path.contains_normalForm_of_definite`. The indexes of a path that was read or built are in
reach (`Path.inReach_of_read`, `PathBuilder.inReach_of_finish`); that the largest index is not listed has to be asked
for.
-/

namespace PathContainment

namespace Sequence

variable {f g : Element → Element} {p q : List Element}

/-- Elements that are written in their normal form are their normal forms. -/
theorem normalForm_of_isNormal (h : isNormal p = true) : normalForm p = p := by
  rw [normalForm, List.map_congr_left fun e he => Element.normalForm_of_isNormal (List.all_eq_true.1 h e he)]
  exact List.map_id' _

theorem contains_map_of_definite (hf : ∀ e, (f e).isDescent = e.isDescent)
    (hfg : ∀ e ∈ p, ∀ c ∈ q, e.meets c ≠ .unknown → (f e).meets (g c) = e.meets c)
    (h : contains p q ≠ .unknown) : contains (p.map f) (q.map g) = contains p q := by
  cases hv : contains p q with
  | unknown => exact absurd hv h
  | holds =>
    have hl := contains_eq_holds_iff.1 hv
    refine contains_eq_holds_iff.2 (Layout.map hf (hl.imp fun e he c hc hec => ?_))
    rw [hfg e he c hc (by rw [hec]; decide), hec]
  | fails =>
    -- a layout without a failing pair would come from one of the sequences as they were
    by_contra hn
    have hl := (contains_ne_fails_iff.1 hn).of_map hf
    refine contains_ne_fails_iff.2 (hl.imp fun e he c hc hec hfails => hec ?_) hv
    rw [hfg e he c hc (by rw [hfails]; decide), hfails]

end Sequence

namespace Element

variable {e c : Element}

theorem underlying_normalForm (e : Element) : e.normalForm.underlying = e.underlying.normalForm := by
  cases he : e.isDescent with
  | true =>
    cases e with
    | descent inner => rfl
    | _ => cases he
  | false => rw [underlying_of_not_isDescent he, underlying_of_not_isDescent ((isDescent_normalForm e).trans he)]

/-- A definite verdict on a pair of a layout is that on the normal forms. -/
theorem meets_normalForm (he : e.Valid) (hem : e.ListsNoMax) (hc : c.Valid) (hcr : c.InReach) (hcm : c.ListsNoMax)
    (h : e.meets c ≠ .unknown) :
    e.normalForm.meets c = e.meets c ∧ e.meets c.normalForm = e.meets c ∧
      e.normalForm.meets c.normalForm = e.meets c := by
  have hde := isDescent_normalForm e
  have hdc := isDescent_normalForm c
  by_cases hd : c.isDescent = true → e.isDescent = true
  · have hd₁ : c.isDescent = true → e.normalForm.isDescent = true := by rwa [hde]
    have hd₂ : c.normalForm.isDescent = true → e.isDescent = true := by rwa [hdc]
    have hd₃ : c.normalForm.isDescent = true → e.normalForm.isDescent = true := by rwa [hde, hdc]
    rw [meets_eq_contains_underlying hd] at h
    have hl := contains_normalForm_left he.underlying.2 hem.underlying hc.underlying.1 hcr.underlying h
    have hright : ∀ a : Element, a.isDescent = false → a.contains c.underlying ≠ .unknown →
        a.contains c.underlying.normalForm = a.contains c.underlying := by
      intro a ha hac
      exact contains_normalForm_right ha hc.underlying.2 hcm.underlying hc.underlying.1 hcr.underlying hac
    rw [meets_eq_contains_underlying hd, meets_eq_contains_underlying hd₁, meets_eq_contains_underlying hd₂,
      meets_eq_contains_underlying hd₃, underlying_normalForm, underlying_normalForm]
    refine ⟨hl, hright _ he.underlying.2 h, ?_⟩
    rw [hright _ ((isDescent_normalForm _).trans he.underlying.2) (by rwa [hl]), hl]
  · -- a recursive descent is laid out on no other element, whichever way they are written
    rw [Classical.not_imp, Bool.not_eq_true] at hd
    have hf : ∀ a b : Element, a.isDescent = false → b.isDescent = true → a.meets b = .fails := by
      intro a b ha hb
      rw [meets_eq_contains ha, contains_eq_fails_of_isDescent ha hb]
    rw [hf _ _ hd.2 hd.1, hf _ _ (hde.trans hd.2) hd.1, hf _ _ hd.2 (hdc.trans hd.1),
      hf _ _ (hde.trans hd.2) (hdc.trans hd.1)]
    exact ⟨rfl, rfl, rfl⟩

end Element

namespace Path

variable {s₁ s₂ : Scope}

theorem elements_normalForm (p : Path s₁) : p.normalForm.elements = p.elements.map Element.normalForm := by
  unfold normalForm
  split
  · rename_i h
    exact (Sequence.normalForm_of_isNormal h).symm
  · rfl

/-- Bringing paths into normal form does not change a definite verdict, whichever of the two is replaced. -/
theorem contains_normalForm_of_definite {p : Path s₁} {q : Path s₂} (hpm : ∀ e ∈ p.elements, e.ListsNoMax)
    (hqr : ∀ e ∈ q.elements, e.InReach) (hqm : ∀ e ∈ q.elements, e.ListsNoMax) (h : p.contains q ≠ .unknown) :
    p.normalForm.contains q = p.contains q ∧ p.contains q.normalForm = p.contains q ∧
      p.normalForm.contains q.normalForm = p.contains q := by
  have hmeets : ∀ e ∈ p.elements, ∀ c ∈ q.elements, e.meets c ≠ .unknown →
      e.normalForm.meets c = e.meets c ∧ e.meets c.normalForm = e.meets c ∧
        e.normalForm.meets c.normalForm = e.meets c := by
    intro e he c hc
    exact Element.meets_normalForm (p.valid.valid_of_mem e he) (hpm e he) (q.valid.valid_of_mem c hc) (hqr c hc)
      (hqm c hc)
  have hleft := Sequence.contains_map_of_definite (f := Element.normalForm) (g := id) Element.isDescent_normalForm
    (fun e he c hc hec => (hmeets e he c hc hec).1) h
  have hright := Sequence.contains_map_of_definite (f := id) (g := Element.normalForm) (fun e => rfl)
    (fun e he c hc hec => (hmeets e he c hc hec).2.1) h
  have hboth := Sequence.contains_map_of_definite (f := Element.normalForm) (g := Element.normalForm)
    Element.isDescent_normalForm (fun e he c hc hec => (hmeets e he c hc hec).2.2) h
  rw [List.map_id] at hleft hright
  simp only [contains, elements_normalForm]
  exact ⟨hleft, hright, hboth⟩

/-- The path `$[0,2,4]` contains `$[2:3]`, and so do their normal forms `$[:5:2]` and `$[2]`. -/
theorem contains_normalForm_of_list :
    let p : AnyPath :=
      { elements := [.root, .indexes { toList := [0, 2, 4], increasing := by decide }]
        valid := by decide, admitted := rfl }
    let q : AnyPath :=
      { elements := [.root, .slice { start := some 2, stop := some 3, step := 1, step_ne_zero := by decide }]
        valid := by decide, admitted := rfl }
    (∀ e ∈ p.elements, e.ListsNoMax) ∧ (∀ e ∈ q.elements, e.InReach) ∧ (∀ e ∈ q.elements, e.ListsNoMax) ∧
      p.contains q = .holds ∧ p.normalForm.contains q = .holds ∧ p.contains q.normalForm = .holds ∧
      p.normalForm.contains q.normalForm = .holds := by
  intro p q
  have hpm : ∀ e ∈ p.elements, e.ListsNoMax := by simp [p, Element.ListsNoMax, maxIndex]
  have hqr : ∀ e ∈ q.elements, e.InReach := by simp [q, Element.InReach]
  have hqm : ∀ e ∈ q.elements, e.ListsNoMax := by simp [q, Element.ListsNoMax]
  have h : p.contains q = .holds := by decide +kernel
  have hn := contains_normalForm_of_definite hpm hqr hqm (by rw [h]; decide)
  rw [h] at hn
  exact ⟨hpm, hqr, hqm, h, hn⟩

end Path

end PathContainment
