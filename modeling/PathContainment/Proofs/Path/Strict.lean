import PathContainment.Proofs.Element.Strict
import PathContainment.Proofs.Path.NormalForm

/-!
# Strict paths

A strict path describes exactly one location, and its normal form is the concrete path to it. Strict and concrete paths
are without recursive descent, so that the elements of a layout are paired one by one (`Layout.iff_forall₂`); what is
known of single elements then says that a strict path contains one concrete path and is contained in one, in both
cases its normal form (`Path.isStrict_iff_unique`).
-/

namespace PathContainment

namespace Sequence

variable {p r : List Element}

private theorem forall₂_normalForm_iff :
    List.Forall₂ (fun m e => m = Element.normalForm e) r p ↔ r = p.map Element.normalForm := by
  rw [← List.forall₂_eq_eq_eq, List.forall₂_map_right_iff]

/-- A strict sequence contains its normal form, and no other concrete sequence. -/
theorem contains_iff_eq_normalForm (hp : isStrict p = true) (hr : ∀ m ∈ r, m.IsConcrete) :
    contains p r = .holds ↔ r = p.map Element.normalForm := by
  have hstrict : ∀ e ∈ p, e.isStrict = true := List.all_eq_true.1 hp
  have hdescent : ∀ e ∈ p, e.isDescent = false := fun e he => Element.isDescent_of_isStrict (hstrict e he)
  have hmeets : ∀ e ∈ p, ∀ m ∈ r, e.meets m = .holds ↔ m = e.normalForm := by
    intro e he m hm
    rw [Element.meets_eq_contains (hdescent e he)]
    exact Element.contains_iff_eq_normalForm (hstrict e he) (hr m hm)
  calc contains p r = .holds
    _ ↔ Layout (fun e m => e.meets m = .holds) p r := contains_eq_holds_iff
    _ ↔ Layout (fun e m => m = e.normalForm) p r := Layout.congr hmeets
    _ ↔ List.Forall₂ (fun e m => m = Element.normalForm e) p r := Layout.iff_forall₂ hdescent
    _ ↔ List.Forall₂ (fun m e => m = Element.normalForm e) r p := ⟨.flip, .flip⟩
    _ ↔ r = p.map Element.normalForm := forall₂_normalForm_iff

/-- A strict sequence is contained in its normal form, and in no other concrete sequence. -/
theorem contains_iff_eq_normalForm_of_concrete (hp : isStrict p = true) (hr : ∀ m ∈ r, m.IsConcrete) :
    contains r p = .holds ↔ r = p.map Element.normalForm := by
  have hmeets : ∀ m ∈ r, ∀ e ∈ p, m.meets e = .holds ↔ m = e.normalForm := by
    intro m hm e he
    rw [Element.meets_eq_contains (hr m hm).isDescent]
    exact Element.contains_iff_eq_normalForm_of_concrete (List.all_eq_true.1 hp e he) (hr m hm)
  calc contains r p = .holds
    _ ↔ Layout (fun m e => m.meets e = .holds) r p := contains_eq_holds_iff
    _ ↔ Layout (fun m e => m = e.normalForm) r p := Layout.congr hmeets
    _ ↔ List.Forall₂ (fun m e => m = Element.normalForm e) r p := Layout.iff_forall₂ fun m hm => (hr m hm).isDescent
    _ ↔ r = p.map Element.normalForm := forall₂_normalForm_iff

/-- Between concrete sequences there is no difference between equality and being written in the same way. -/
theorem beq_iff_of_concrete (hp : ∀ e ∈ p, e.IsConcrete) (hr : ∀ m ∈ r, m.IsConcrete) : (r == p) = true ↔ r = p := by
  have hcanonical : ∀ {l : List Element}, (∀ e ∈ l, e.IsConcrete) → l.map Element.canonical = l := by
    intro l hl
    rw [List.map_congr_left fun e he => (hl e he).canonical, List.map_id']
  rw [Element.list_beq_iff, hcanonical hp, hcanonical hr]

end Sequence

namespace Path

variable {scope : Scope} {p : Path scope}

theorem isStrict_iff : p.isStrict = true ↔ ∀ e ∈ p.normalForm.elements, e.IsConcrete := by
  rw [elements_normalForm, List.forall_mem_map]
  exact List.all_eq_true.trans (forall₂_congr fun e _ => Element.isStrict_iff)

/-- A path is strict exactly when its normal form consists of the root, names and indexes only. If it is strict, then
of all concrete paths it contains its normal form only, and is contained in its normal form only. -/
theorem isStrict_iff_unique (p : Path scope) :
    (p.isStrict = true ↔ ∀ e ∈ p.normalForm.elements, e.IsConcrete) ∧
    (p.isStrict = true → ∀ r : Path scope, (∀ m ∈ r.elements, m.IsConcrete) →
      (p.contains r = .holds ↔ (r == p.normalForm) = true) ∧ (r.contains p = .holds ↔ (r == p.normalForm) = true)) := by
  refine ⟨isStrict_iff, fun hp r hr => ?_⟩
  have heq : (r == p.normalForm) = true ↔ r.elements = p.elements.map Element.normalForm := by
    rw [← elements_normalForm]
    exact Sequence.beq_iff_of_concrete (isStrict_iff.1 hp) hr
  rw [heq]
  exact ⟨Sequence.contains_iff_eq_normalForm hp hr, Sequence.contains_iff_eq_normalForm_of_concrete hp hr⟩

/-- The path `$['a'][4:2:-2][7]` is strict. It contains `$.a[4][7]` and is contained in it, and it does not contain
`$.a[2][7]`. -/
theorem isStrict_iff_unique_of_slice :
    let p : AnyPath :=
      { elements := [.root, .properties { toList := ["a"], increasing := List.pairwise_singleton _ _ },
          .slice { start := some 4, stop := some 2, step := -2, step_ne_zero := by decide },
          .indexes { toList := [7], increasing := List.pairwise_singleton _ _ }]
        valid := by decide +kernel, admitted := rfl }
    let r : AnyPath :=
      { elements := [.root, .property "a", .index 4, .index 7], valid := by decide, admitted := rfl }
    let r' : AnyPath :=
      { elements := [.root, .property "a", .index 2, .index 7], valid := by decide, admitted := rfl }
    p.isStrict = true ∧ p.contains r = .holds ∧ r.contains p = .holds ∧ p.contains r' ≠ .holds ∧
      r'.contains p ≠ .holds := by
  intro p r r'
  have hp : p.isStrict = true := by decide +kernel
  have hr : (∀ m ∈ r.elements, m.IsConcrete) ∧ ∀ m ∈ r'.elements, m.IsConcrete := by
    simp [r, r', Element.IsConcrete]
  have heq : (r == p.normalForm) = true ∧ ¬(r' == p.normalForm) = true := by decide +kernel
  have h := (isStrict_iff_unique p).2 hp r hr.1
  have h' := (isStrict_iff_unique p).2 hp r' hr.2
  exact ⟨hp, h.1.2 heq.1, h.2.2 heq.1, fun hc => heq.2 (h'.1.1 hc), fun hc => heq.2 (h'.2.1 hc)⟩

end Path

end PathContainment
