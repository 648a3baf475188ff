import PathContainment.Text.Decimal
import PathContainment.Proofs.Text.Blank
import Mathlib.Data.Int.Init

/-!
# Decimal texts and their numbers

`Number l i` says, without regard to how texts are read, that the text `l` is a decimal form of the 64-bit integer
`i`: digits after at most one sign. The texts that are read as a number are these (`word?_eq_some_iff`), and the text
that is written for a number is one of them (`number_ofWord`, `number_ofNat`).
-/

namespace PathContainment.Decimal

/-- The text consists of decimal digits and has the given value. -/
structure Digits (l : List Char) (n : Nat) : Prop where
  ne_nil : l ≠ []
  isDigit : ∀ c ∈ l, c.isDigit = true
  value : Nat.ofDigitChars 10 l 0 = n

/-- The text is a decimal form of the 64-bit integer. -/
inductive Number : List Char → Int64 → Prop
  | plain {l : List Char} {n : Nat} {i : Int64} (hl : Digits l n) (hi : i.toInt = n) : Number l i
  | plus {l : List Char} {n : Nat} {i : Int64} (hl : Digits l n) (hi : i.toInt = n) : Number ('+' :: l) i
  | minus {l : List Char} {n : Nat} {i : Int64} (hl : Digits l n) (hi : i.toInt = -n) : Number ('-' :: l) i

variable {l : List Char} {n : Nat} {i : Int64}

/-! ### Reading -/

theorem digits?_eq_some_iff : digits? l = some n ↔ Digits l n := by
  unfold digits?
  constructor
  · intro h
    split at h
    · rename_i hl
      exact ⟨hl.1, List.all_eq_true.1 hl.2, Option.some.inj h⟩
    · cases h
  · intro h
    rw [if_pos ⟨h.ne_nil, List.all_eq_true.2 h.isDigit⟩, h.value]

private theorem word?_eq_some_iff_integer? : word? l = some i ↔ integer? l = some i.toInt := by
  unfold word?
  constructor
  · intro h
    obtain ⟨m, hm, h⟩ := Option.bind_eq_some_iff.1 h
    split at h
    · rename_i hr
      cases h
      rw [hm, Int64.toInt_ofInt_of_le hr.1 (Int.lt_of_le_of_lt hr.2 (by decide))]
    · cases h
  · intro h
    rw [h, Option.bind_some, if_pos ⟨Int64.le_toInt i, Int64.toInt_le i⟩, Int64.ofInt_toInt]

private theorem map_digits?_eq_some_iff {f : Nat → Int} :
    (digits? l).map f = some i.toInt ↔ ∃ n, Digits l n ∧ i.toInt = f n := by
  rw [Option.map_eq_some_iff]
  exact exists_congr fun n => and_congr digits?_eq_some_iff eq_comm

/-- A text of digits has no sign. -/
private theorem integer?_of_digits (h : Digits l n) : integer? l = some (n : Int) := by
  unfold integer?
  split
  · cases h.isDigit '+' (by simp)
  · cases h.isDigit '-' (by simp)
  · rw [digits?_eq_some_iff.2 h]
    rfl

/-- What is read as a 64-bit integer are its decimal forms. -/
theorem word?_eq_some_iff : word? l = some i ↔ Number l i := by
  rw [word?_eq_some_iff_integer?]
  constructor
  · intro h
    unfold integer? at h
    split at h
    · obtain ⟨n, hn, hi⟩ := map_digits?_eq_some_iff.1 h
      exact .plus hn hi
    · obtain ⟨n, hn, hi⟩ := map_digits?_eq_some_iff.1 h
      exact .minus hn hi
    · obtain ⟨n, hn, hi⟩ := map_digits?_eq_some_iff.1 h
      exact .plain hn hi
  · intro h
    cases h with
    | plain hl hi => rw [integer?_of_digits hl, hi]
    | plus hl hi => exact map_digits?_eq_some_iff.2 ⟨_, hl, hi⟩
    | minus hl hi => exact map_digits?_eq_some_iff.2 ⟨_, hl, hi⟩

/-! ### The characters of a number -/

theorem Digits.not_mem (h : Digits l n) {c : Char} (hc : c.isDigit = false) : c ∉ l := fun hm => by
  rw [h.isDigit c hm] at hc
  cases hc

namespace Number

theorem ne_nil (h : Number l i) : l ≠ [] := by
  cases h with
  | plain hl => exact hl.ne_nil
  | plus | minus => exact List.cons_ne_nil _ _

theorem not_mem (h : Number l i) {c : Char} (hc : c.isDigit = false) (hplus : c ≠ '+') (hminus : c ≠ '-') : c ∉ l := by
  cases h with
  | plain hl => exact hl.not_mem hc
  | plus hl => exact fun hm => (List.mem_cons.1 hm).elim hplus (hl.not_mem hc)
  | minus hl => exact fun hm => (List.mem_cons.1 hm).elim hminus (hl.not_mem hc)

private theorem isBlank_of_isDigit {c : Char} (hc : c.isDigit = true) : isBlank c = false := by
  have hr : 48 ≤ c.toNat ∧ c.toNat ≤ 57 := by
    simpa [Char.isDigit, UInt32.le_iff_toNat_le] using hc
  rw [← Bool.not_eq_true]
  intro hb
  obtain ⟨⟨low, high⟩, hm, hb⟩ := List.any_eq_true.1 hb
  simp only [Bool.and_eq_true, decide_eq_true_eq] at hb
  have hout : ∀ r ∈ blankIntervals, r.2 < 48 ∨ 57 < r.1 := by decide
  have := hout _ hm
  dsimp only at this
  omega

theorem isBlank_eq_false (h : Number l i) : ∀ c ∈ l, isBlank c = false := by
  cases h with
  | plain hl => exact fun c hc => isBlank_of_isDigit (hl.isDigit c hc)
  | plus hl => exact List.forall_mem_cons.2 ⟨by decide, fun c hc => isBlank_of_isDigit (hl.isDigit c hc)⟩
  | minus hl => exact List.forall_mem_cons.2 ⟨by decide, fun c hc => isBlank_of_isDigit (hl.isDigit c hc)⟩

end Number

/-! ### Writing -/

theorem digits_ofNat (n : Nat) : Digits (ofNat n) n where
  ne_nil := Nat.toDigits_ne_nil
  isDigit _ hc := Nat.isDigit_of_mem_toDigits (by decide) (by decide) hc
  value := Nat.ofDigitChars_toDigits (by decide) (by decide)

theorem number_ofWord (i : Int64) : Number (ofWord i) i := by
  unfold ofWord
  split
  · rename_i hi
    rw [Int64.lt_iff_toInt_lt] at hi
    refine .minus (digits_ofNat _) ?_
    have hzero : (0 : Int64).toInt = 0 := rfl
    omega
  · rename_i hi
    rw [Int64.lt_iff_toInt_lt] at hi
    refine .plain (digits_ofNat _) ?_
    have hzero : (0 : Int64).toInt = 0 := rfl
    omega

theorem number_ofNat (hi : i.toInt = n) : Number (ofNat n) i := .plain (digits_ofNat n) hi

end PathContainment.Decimal
