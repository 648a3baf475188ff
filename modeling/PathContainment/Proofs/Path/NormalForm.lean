import PathContainment.Proofs.Sequence.Equality
import PathContainment.Proofs.Sequence.NormalForm

/-!
# Paths in normal form

A path and its normal form have the same length and begin alike. The elements of a normal form are written in their
normal forms, so that a normal form may be marked as such without being looked at again, and the normal form of a path
so marked is the path (`normalForm_stable`).

No list of indexes may consist of all those that an array can have, of which there are `2^63`. Such a list is evenly
spaced from `0` on and ends with the largest index: it is written as a slice without start and end, and the normal form
of this slice is `[*]`.
-/

namespace PathContainment.Path

variable {scope : Scope} {p : Path scope}

theorem length_normalForm (p : Path scope) : p.normalForm.length = p.length := by
  rw [length, elements_normalForm, List.length_map]
  rfl

theorem isAbsolute_normalForm (p : Path scope) : p.normalForm.isAbsolute = p.isAbsolute := by
  rw [isAbsolute, elements_normalForm]
  exact Sequence.isAbsolute_normalForm p.valid

/-- Equal paths have equal normal forms. -/
theorem normalForm_congr {q : Path scope} (h : (p == q) = true) : (p.normalForm == q.normalForm) = true := by
  show (p.normalForm.elements == q.normalForm.elements) = true
  rw [elements_normalForm, elements_normalForm]
  exact Sequence.normalForm_congr h

theorem isNormal_iff : p.isNormal = true ↔ ∀ e ∈ p.elements, e.isNormal = true := List.all_eq_true

theorem normalForm_of_isNormal (h : p.isNormal = true) : p.normalForm = p := if_pos h

theorem isNormal_normalForm (h : ∀ e ∈ p.elements, e.ListsBounded) : p.normalForm.isNormal = true := by
  rw [isNormal_iff, elements_normalForm, List.forall_mem_map]
  intro e he
  exact Element.isNormal_normalForm (p.valid.valid_of_mem e he) (h e he)

/-- The normal form is as long as the path and begins like it. Each of its elements is in normal form, and it does not
change when it is brought into normal form again; nor does the path, if it is in normal form. -/
theorem normalForm_stable (p : Path scope) (h : ∀ e ∈ p.elements, e.ListsBounded) :
    p.normalForm.length = p.length ∧ p.normalForm.isAbsolute = p.isAbsolute ∧
    (∀ e ∈ p.normalForm.elements, e.isNormal = true) ∧
    (Sequence.normalForm p.normalForm.elements = p.normalForm.elements ∧
      p.normalForm.normalForm.text = p.normalForm.text) ∧
    (p.isNormal = true → Sequence.normalForm p.elements = p.elements ∧ p.normalForm.text = p.text) := by
  have hnormal := isNormal_normalForm h
  refine ⟨length_normalForm p, isAbsolute_normalForm p, isNormal_iff.1 hnormal, ?_, fun hp => ?_⟩
  · exact ⟨Sequence.normalForm_of_isNormal hnormal, congrArg text (normalForm_of_isNormal hnormal)⟩
  · exact ⟨Sequence.normalForm_of_isNormal hp, congrArg text (normalForm_of_isNormal hp)⟩

/-- The path `$..[0,2,4]['a'][0:]` has the normal form `$..[:5:2].a[*]`, of four elements again. -/
theorem normalForm_stable_of_list :
    let p : AnyPath :=
      { elements := [.root, .descent (.indexes { toList := [0, 2, 4], increasing := by decide }),
          .properties { toList := ["a"], increasing := List.pairwise_singleton _ _ },
          .slice { start := some 0, stop := none, step := 1, step_ne_zero := by decide }]
        valid := by decide +kernel, admitted := rfl }
    (∀ e ∈ p.elements, e.ListsBounded) ∧ p.isNormal = false ∧ p.normalForm.text = "$..[:5:2].a[*]" ∧
      p.normalForm.length = 4 ∧ (∀ e ∈ p.normalForm.elements, e.isNormal = true) ∧
      p.normalForm.normalForm.text = "$..[:5:2].a[*]" := by
  intro p
  have hb : ∀ e ∈ p.elements, e.ListsBounded := by simp [p, Element.ListsBounded, SortedSet.size, maxIndex]
  have htext : p.normalForm.text = "$..[:5:2].a[*]" := by decide +kernel
  obtain ⟨hlength, -, hnormal, ⟨-, hagain⟩, -⟩ := normalForm_stable p hb
  exact ⟨hb, by decide +kernel, htext, hlength, hnormal, hagain.trans htext⟩

end PathContainment.Path
