import PathContainment.Sequence.Reader
import Mathlib.Data.Nat.Init

/-!
# Balanced texts

A text is balanced when its parentheses are matched, those in a quoted part not counted, and every quoted part ends.
The reader does not look for this shape: it counts open parentheses from left to right. The two agree: the count
begins and ends inside the first parenthesis, and never leaves it before, exactly on the balanced texts
(`scan_eq_some_start_iff`). So what stands between a parenthesis and the one that closes it is the balanced text in
front of that (`parenthesized_eq_some_iff`).
-/

namespace PathContainment.Sequence

/-- The parentheses of the text are matched, apart from those in its quoted parts, which all end. -/
inductive Balanced : List Char → Prop
  | nil : Balanced []
  | plain {c : Char} {t : List Char} (hc : c ∉ ['\'', '"', '(', ')']) (ht : Balanced t) : Balanced (c :: t)
  | quoted {q : Char} {s t : List Char} (hq : q = '\'' ∨ q = '"') (hs : q ∉ s) (ht : Balanced t) :
      Balanced (q :: s ++ q :: t)
  | nested {s t : List Char} (hs : Balanced s) (ht : Balanced t) : Balanced ('(' :: s ++ ')' :: t)

/-- The nesting after a text, absent when the first parenthesis has been closed on the way. -/
def Nesting.scan (nesting : Nesting) (s : List Char) : Option Nesting := s.foldlM Nesting.step nesting

variable {d : Nat} {q c : Char} {s t : List Char}

namespace Nesting

variable {nesting : Nesting}

theorem scan_cons : nesting.scan (c :: s) = (nesting.step c).bind fun n => n.scan s := List.foldlM_cons

theorem scan_append : nesting.scan (s ++ t) = (nesting.scan s).bind fun n => n.scan t := List.foldlM_append

theorem step_plain (hc : c ∉ ['\'', '"', '(', ')']) : step ⟨d, none⟩ c = some ⟨d, none⟩ := by
  simp only [List.mem_cons, List.not_mem_nil, or_false, not_or] at hc
  simp [step, hc]

theorem step_open_quote (hq : q = '\'' ∨ q = '"') : step ⟨d, none⟩ q = some ⟨d, some q⟩ := if_pos hq

theorem step_close_quote : step ⟨d, some q⟩ q = some ⟨d, none⟩ := by simp [step]

theorem step_open : step ⟨d, none⟩ '(' = some ⟨d + 1, none⟩ := rfl

theorem step_close : step ⟨d + 1, none⟩ ')' = some ⟨d, none⟩ := rfl

theorem step_eq_none_iff : nesting.step c = none ↔ nesting = start ∧ c = ')' := by
  constructor
  · intro h
    unfold step at h
    split at h
    · cases h
    · split at h
      · cases h
      · split at h
        · cases h
        · split at h
          · rename_i hc
            split at h
            · exact ⟨rfl, hc⟩
            · cases h
          · cases h
  · rintro ⟨rfl, rfl⟩
    rfl

/-- A quoted part goes on until its quotation mark comes again. -/
theorem scan_quoted (hs : q ∉ s) : scan ⟨d, some q⟩ s = some ⟨d, some q⟩ := by
  induction s with
  | nil => rfl
  | cons c s ih =>
    have hc : c ≠ q := fun hc => hs (by simp [hc])
    have hstep : step ⟨d, some q⟩ c = some ⟨d, some q⟩ := by simp [step, hc]
    rw [scan_cons, hstep]
    exact ih fun hm => hs (List.mem_cons_of_mem c hm)

end Nesting

open Nesting

/-! ### Balanced texts are counted to the same depth -/

theorem Balanced.scan (h : Balanced t) : Nesting.scan ⟨d, none⟩ t = some ⟨d, none⟩ := by
  induction h generalizing d with
  | nil => rfl
  | plain hc _ ih =>
    rw [scan_cons, step_plain hc]
    exact ih
  | quoted hq hs _ ih =>
    rw [List.cons_append, scan_cons, step_open_quote hq, Option.bind_some, scan_append, scan_quoted hs,
      Option.bind_some, scan_cons, step_close_quote]
    exact ih
  | nested _ _ ihs iht =>
    rw [List.cons_append, scan_cons, step_open, Option.bind_some, scan_append, ihs, Option.bind_some, scan_cons,
      step_close]
    exact iht

/-! ### Texts that are counted to the same depth are balanced -/

/-- The text closes a number of open parentheses and is balanced before, between and after these. -/
private inductive Closes : Nat → List Char → Prop
  | balanced {t : List Char} (ht : Balanced t) : Closes 0 t
  | close {d : Nat} {s t : List Char} (hs : Balanced s) (ht : Closes d t) : Closes (d + 1) (s ++ ')' :: t)

/-- What keeps a text balanced in front of it can be put in front of a text that closes parentheses. -/
private theorem Closes.append (p : List Char) (hp : ∀ s, Balanced s → Balanced (p ++ s)) (ht : Closes d t) :
    Closes d (p ++ t) := by
  cases ht with
  | balanced ht => exact .balanced (hp _ ht)
  | close hs ht =>
    rw [← List.append_assoc]
    exact .close (hp _ hs) ht

/-- A quoted part that is open has its end in the text. -/
private theorem exists_closing_quote (h : Nesting.scan ⟨d, some q⟩ t = some start) :
    ∃ s r, q ∉ s ∧ t = s ++ q :: r ∧ Nesting.scan ⟨d, none⟩ r = some start := by
  by_cases hq : q ∈ t
  · obtain ⟨s, r, rfl, hs⟩ := List.eq_append_cons_of_mem hq
    rw [scan_append, scan_quoted hs, Option.bind_some, scan_cons, step_close_quote] at h
    exact ⟨s, r, hs, rfl, h⟩
  · rw [scan_quoted hq] at h
    cases h

private theorem closes_of_scan (h : Nesting.scan ⟨d, none⟩ t = some start) : Closes d t := by
  -- the text behind a quoted part is no tail of the match, so that the induction is on the length
  induction hn : t.length using Nat.strongRecOn generalizing d t with
  | ind n ih =>
    cases t with
    | nil =>
      cases h
      exact .balanced .nil
    | cons c t =>
      rw [scan_cons] at h
      rw [List.length_cons] at hn
      by_cases hq : c = '\'' ∨ c = '"'
      · rw [step_open_quote hq] at h
        obtain ⟨s, r, hs, rfl, hscan⟩ := exists_closing_quote h
        have hr : Closes d r := ih r.length (by simp at hn; omega) hscan rfl
        have happend := hr.append (c :: s ++ [c]) fun u hu => by simpa using Balanced.quoted hq hs hu
        simpa using happend
      · by_cases hopen : c = '('
        · subst hopen
          have hrest : Closes (d + 1) t := ih t.length (by omega) h rfl
          cases hrest with
          | @close _ s r hs hr =>
            have happend := hr.append ('(' :: s ++ [')']) fun u hu => by simpa using Balanced.nested hs hu
            simpa using happend
        · by_cases hclose : c = ')'
          · subst hclose
            cases d with
            | zero => cases h
            | succ d => exact .close .nil (ih t.length (by omega) h rfl)
          · have hc : c ∉ ['\'', '"', '(', ')'] := by simp_all
            rw [step_plain hc] at h
            exact (ih t.length (by omega) h rfl).append [c] fun _ => .plain hc

/-- The count of open parentheses is the same after a text as before, and never below, exactly if the text is
balanced. -/
theorem scan_eq_some_start_iff : start.scan t = some start ↔ Balanced t := by
  constructor
  · intro h
    cases closes_of_scan h with
    | balanced ht => exact ht
  · exact Balanced.scan

/-! ### Up to the closing parenthesis -/

private theorem parenthesized_eq_some_iff_scan {nesting : Nesting} {r : List Char} :
    parenthesized nesting s = some (t, r) ↔ s = t ++ ')' :: r ∧ nesting.scan t = some start := by
  induction s generalizing nesting t with
  | nil => simp [parenthesized]
  | cons c s ih =>
    unfold parenthesized
    cases hstep : nesting.step c with
    | none =>
      obtain ⟨rfl, rfl⟩ := step_eq_none_iff.1 hstep
      constructor
      · intro h
        cases h
        exact ⟨rfl, rfl⟩
      · rintro ⟨heq, ht⟩
        cases t with
        | nil =>
          cases heq
          rfl
        | cons c t =>
          cases heq
          rw [scan_cons, hstep] at ht
          cases ht
    | some next =>
      constructor
      · intro h
        obtain ⟨⟨t', r'⟩, h', heq⟩ := Option.map_eq_some_iff.1 h
        cases heq
        obtain ⟨rfl, ht⟩ := ih.1 h'
        refine ⟨rfl, ?_⟩
        rw [scan_cons, hstep]
        exact ht
      · rintro ⟨heq, ht⟩
        cases t with
        | nil =>
          cases heq
          cases ht
          cases hstep
        | cons c t =>
          cases heq
          rw [scan_cons, hstep] at ht
          exact Option.map_eq_some_iff.2 ⟨(t, r), ih.2 ⟨rfl, ht⟩, rfl⟩

/-- The text up to the closing parenthesis is the balanced text that is followed by it. -/
theorem parenthesized_eq_some_iff {r : List Char} :
    parenthesized .start s = some (t, r) ↔ s = t ++ ')' :: r ∧ Balanced t := by
  rw [parenthesized_eq_some_iff_scan, scan_eq_some_start_iff]

end PathContainment.Sequence
