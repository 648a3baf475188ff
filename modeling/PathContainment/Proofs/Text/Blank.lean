import PathContainment.Text.Blank
import Mathlib.Data.List.TakeWhile

/-!
# White space around a text

`skipBlank` takes away the white space in front of a text and nothing else, and `trim` the white space at its two
ends. So a text is always its trimmed form with white space around it (`exists_trim`), and white space that is put
around a text makes no difference to the trimmed form (`trim_append_left`, `trim_append_right`).
-/

namespace PathContainment

/-- The text is white space. -/
def Blanks (s : List Char) : Prop := ∀ c ∈ s, isBlank c = true

variable {l s : List Char} {c : Char}

theorem Blanks.nil : Blanks [] := fun _ h => by cases h

theorem Blanks.append (hl : Blanks l) (hs : Blanks s) : Blanks (l ++ s) :=
  List.forall_mem_append.2 ⟨hl, hs⟩

theorem Blanks.reverse (hl : Blanks l) : Blanks l.reverse := fun c hc => hl c (List.mem_reverse.1 hc)

/-! ### In front of a text -/

theorem skipBlank_append (hl : Blanks l) (s : List Char) : skipBlank (l ++ s) = skipBlank s :=
  List.dropWhile_append_of_pos hl

theorem skipBlank_blanks (hl : Blanks l) : skipBlank l = [] := List.dropWhile_eq_nil_iff.2 hl

theorem skipBlank_cons (hc : isBlank c = false) (s : List Char) : skipBlank (c :: s) = c :: s :=
  List.dropWhile_cons_of_neg (by simp [hc])

theorem exists_skipBlank (s : List Char) : ∃ l, Blanks l ∧ s = l ++ skipBlank s :=
  ⟨s.takeWhile isBlank, fun _ => List.mem_takeWhile_imp, List.takeWhile_append_dropWhile.symm⟩

/-- The white space in front of a text is taken away with or without something after the text. -/
theorem skipBlank_append_of_exists (h : ∃ c ∈ s, isBlank c = false) (t : List Char) :
    skipBlank (s ++ t) = skipBlank s ++ t := by
  unfold skipBlank
  rw [List.dropWhile_append]
  refine if_neg fun hnil => ?_
  obtain ⟨c, hc, hb⟩ := h
  rw [List.isEmpty_iff, List.dropWhile_eq_nil_iff] at hnil
  exact Bool.false_ne_true (hb.symm.trans (hnil c hc))

/-! ### At both ends -/

theorem exists_trim (s : List Char) : ∃ l r, Blanks l ∧ Blanks r ∧ s = l ++ trim s ++ r := by
  obtain ⟨l, hl, heq⟩ := exists_skipBlank s
  obtain ⟨r, hr, heq'⟩ := exists_skipBlank (skipBlank s).reverse
  refine ⟨l, r.reverse, hl, hr.reverse, ?_⟩
  rw [trim, List.append_assoc, ← List.reverse_append, ← heq', List.reverse_reverse]
  exact heq

theorem trim_append_left (hl : Blanks l) (s : List Char) : trim (l ++ s) = trim s := by
  rw [trim, skipBlank_append hl, trim]

theorem trim_append_right (hl : Blanks l) (s : List Char) : trim (s ++ l) = trim s := by
  by_cases h : ∃ c ∈ s, isBlank c = false
  · rw [trim, skipBlank_append_of_exists h, List.reverse_append, skipBlank_append hl.reverse, trim]
  · have hs : Blanks s := fun c hc => by
      rw [← Bool.not_eq_false]
      exact fun hb => h ⟨c, hc, hb⟩
    rw [trim, skipBlank_blanks (hs.append hl), trim, skipBlank_blanks hs]

theorem trim_of_not_blank (hs : ∀ c ∈ s, isBlank c = false) : trim s = s := by
  have hskip : ∀ t : List Char, (∀ c ∈ t, isBlank c = false) → skipBlank t = t := by
    intro t ht
    cases t with
    | nil => rfl
    | cons c t => exact skipBlank_cons (ht c (by simp)) t
  rw [trim, hskip s hs, hskip s.reverse (fun c hc => hs c (List.mem_reverse.1 hc)), List.reverse_reverse]

end PathContainment
