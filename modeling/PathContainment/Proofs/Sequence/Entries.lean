import PathContainment.Proofs.Sequence.Grammar
import Mathlib.Data.List.Forall2

/-!
# Lists between brackets

A list is split at its separator, and white space is taken away around each part. Where the entries have neither white
space nor the separator in them, this finds exactly the entries that the grammar lists (`listed_iff_forall₂_entries`).
-/

namespace PathContainment.Sequence

open Grammar

variable {s t : List Char}

/-! ### Splitting at a separator -/

section Entries
variable {separator : Char}

theorem entries_of_not_mem (h : separator ∉ s) : entries separator s = [trim s] := by
  rw [entries, List.splitOn_eq_singleton h]
  rfl

theorem entries_append_cons (s t : List Char) :
    entries separator (s ++ separator :: t) = entries separator s ++ entries separator t := by
  rw [entries, List.splitOn_append_cons_self, List.map_append]
  rfl

/-- A property of texts that holds where there is no separator, and is kept when a part without separator is put in
front of one, holds of all texts. -/
theorem entries_induction (separator : Char) {P : List Char → Prop} (single : ∀ s, separator ∉ s → P s)
    (cons : ∀ s t, separator ∉ s → P t → P (s ++ separator :: t)) (s : List Char) : P s := by
  induction hn : s.length using Nat.strongRecOn generalizing s with
  | ind n ih =>
    by_cases h : separator ∈ s
    · obtain ⟨p, t, rfl, hp⟩ := List.eq_append_cons_of_mem h
      exact cons p t hp (ih t.length (by simp at hn; omega) t rfl)
    · exact single s h

private theorem entries_append_left {l : List Char} (hsep : isBlank separator = false) (hl : Blanks l)
    (s : List Char) : entries separator (l ++ s) = entries separator s := by
  have hout : ∀ s, separator ∉ s → separator ∉ l ++ s := fun s hs hm =>
    (List.mem_append.1 hm).elim (fun hm => by rw [hl _ hm] at hsep; cases hsep) hs
  induction s using entries_induction separator with
  | single s hs => rw [entries_of_not_mem hs, entries_of_not_mem (hout s hs), trim_append_left hl]
  | cons s t hs _ =>
    rw [← List.append_assoc, entries_append_cons, entries_append_cons, entries_of_not_mem hs,
      entries_of_not_mem (hout s hs), trim_append_left hl]

private theorem entries_append_right {l : List Char} (hsep : isBlank separator = false) (hl : Blanks l)
    (s : List Char) : entries separator (s ++ l) = entries separator s := by
  induction s using entries_induction separator with
  | single s hs =>
    have hout : separator ∉ s ++ l := fun hm =>
      (List.mem_append.1 hm).elim hs fun hm => by rw [hl _ hm] at hsep; cases hsep
    rw [entries_of_not_mem hs, entries_of_not_mem hout, trim_append_right hl]
  | cons s t hs ih => rw [List.append_assoc, List.cons_append, entries_append_cons, entries_append_cons, ih]

/-- White space around the whole text is white space around its first or last entry. -/
theorem entries_trim (hsep : isBlank separator = false) (s : List Char) :
    entries separator (trim s) = entries separator s := by
  obtain ⟨l, r, hl, hr, heq⟩ := exists_trim s
  conv_rhs => rw [heq]
  rw [entries_append_right hsep hr, entries_append_left hsep hl]

variable {α : Type} {X : List Char → α → Prop} {as : List α}

private theorem padded_of_trim {a : α} (h : X (trim s) a) : Padded X s a := by
  obtain ⟨l, r, hl, hr, heq⟩ := exists_trim s
  rw [heq]
  exact .mk hl h hr

private theorem listed_of_entries (h : List.Forall₂ X (entries separator s) as) : Listed X separator s as := by
  induction s using entries_induction separator generalizing as with
  | single s hs =>
    rw [entries_of_not_mem hs] at h
    cases h with
    | cons ha h =>
      cases h
      exact .single (padded_of_trim ha)
  | cons s t hs ih =>
    rw [entries_append_cons, entries_of_not_mem hs] at h
    cases h with
    | cons ha h => exact .cons (padded_of_trim ha) (ih h)

/-- The text has neither white space nor the separator in it. -/
def IsEntry (separator : Char) (s : List Char) : Prop := ∀ c ∈ s, isBlank c = false ∧ c ≠ separator

private theorem entries_of_padded (hsep : isBlank separator = false) (hX : ∀ s a, X s a → IsEntry separator s)
    {a : α} (h : Padded X s a) : separator ∉ s ∧ X (trim s) a := by
  obtain @⟨l, s, r, _, hl, hs, hr⟩ := h
  have hentry := hX s a hs
  refine ⟨?_, ?_⟩
  · simp only [List.mem_append]
    rintro ((hm | hm) | hm)
    · rw [hl _ hm] at hsep
      cases hsep
    · exact (hentry _ hm).2 rfl
    · rw [hr _ hm] at hsep
      cases hsep
  · rw [trim_append_right hr, trim_append_left hl, trim_of_not_blank fun c hc => (hentry c hc).1]
    exact hs

/-- The entries that splitting finds are those that are listed. -/
theorem listed_iff_forall₂_entries (hsep : isBlank separator = false) (hX : ∀ s a, X s a → IsEntry separator s) :
    Listed X separator s as ↔ List.Forall₂ X (entries separator s) as := by
  refine ⟨fun h => ?_, listed_of_entries⟩
  induction h with
  | single hs =>
    obtain ⟨hout, hs⟩ := entries_of_padded hsep hX hs
    rw [entries_of_not_mem hout]
    exact .cons hs .nil
  | cons hs _ ih =>
    obtain ⟨hout, hs⟩ := entries_of_padded hsep hX hs
    rw [entries_append_cons, entries_of_not_mem hout]
    exact .cons hs ih

private theorem entries_ne_nil (separator : Char) (s : List Char) : entries separator s ≠ [] := by
  simp [entries, List.splitOn_ne_nil]

theorem two_le_length_entries (h : separator ∈ s) : 2 ≤ (entries separator s).length := by
  obtain ⟨p, t, rfl⟩ := List.append_of_mem h
  have hp := List.length_pos_iff.2 (entries_ne_nil separator p)
  have ht := List.length_pos_iff.2 (entries_ne_nil separator t)
  rw [entries_append_cons, List.length_append]
  omega

/-- What is listed has only the characters of the entries, white space and separators in it. -/
theorem not_mem_of_listed {c : Char} (hc : isBlank c = false) (hsep : c ≠ separator) (hX : ∀ s a, X s a → c ∉ s)
    (h : Listed X separator s as) : c ∉ s := by
  have hpadded : ∀ {s a}, Padded X s a → c ∉ s := by
    rintro _ a @⟨l, s, r, _, hl, hs, hr⟩ hm
    simp only [List.mem_append] at hm
    rcases hm with (hm | hm) | hm
    · rw [hl c hm] at hc
      cases hc
    · exact hX s a hs hm
    · rw [hr c hm] at hc
      cases hc
  induction h with
  | single hs => exact hpadded hs
  | cons hs _ ih => exact List.not_mem_append (hpadded hs) (List.not_mem_cons_of_ne_of_not_mem hsep ih)

theorem separator_mem_of_listed (has : 2 ≤ as.length) (h : Listed X separator s as) : separator ∈ s := by
  cases h with
  | single => exact absurd has (Nat.not_succ_le_self 1)
  | cons => simp

end Entries

end PathContainment.Sequence
