import Mathlib.Algebra.Ring.Int.Defs
import Mathlib.Algebra.Ring.Nat
import PathContainment.Proofs.Except

/-!
# Arithmetic on machine integers

A machine integer has 64 bits and is signed or unsigned. An operation has no result when the integer that it should give
is none of its type, and a division by zero has none either (`Trap`). Where there is a result it is the exact one, so
that the lemmas of this file only say when there is a result.
-/

namespace PathContainment.Machine

/-- Why an operation on machine integers has no result. -/
inductive Trap where
  /-- The exact result is no integer of the type. -/
  | outOfRange
  | divisionByZero
  deriving DecidableEq, Repr

/-- The integer has 64 bits with its sign. -/
def IsSigned (i : Int) : Prop := -2 ^ 63 ≤ i ∧ i < 2 ^ 63

instance (i : Int) : Decidable (IsSigned i) := inferInstanceAs (Decidable (_ ∧ _))

/-- The exact result of an operation on signed integers, if it is a signed integer itself. -/
def signed (i : Int) : Except Trap Int := if IsSigned i then .ok i else .error .outOfRange

/-- The exact result of an operation on unsigned integers, if it is an unsigned integer itself. -/
def unsigned (n : Nat) : Except Trap Nat := if n < 2 ^ 64 then .ok n else .error .outOfRange

def add (a b : Int) : Except Trap Int := signed (a + b)

def sub (a b : Int) : Except Trap Int := signed (a - b)

def mul (a b : Int) : Except Trap Int := signed (a * b)

def abs (a : Int) : Except Trap Int := signed a.natAbs

/-- The quotient, rounded towards zero. -/
def div (a b : Int) : Except Trap Int := if b = 0 then .error .divisionByZero else signed (a.tdiv b)

/-- The remainder, with the sign of the dividend. Where there is no quotient there is no remainder. -/
def rem (a b : Int) : Except Trap Int := (div a b).map fun _ => a.tmod b

/-- The bits of a signed integer, read without a sign. -/
def bits (a : Int) : Nat := (a % 2 ^ 64).toNat

/-! ### When there is a result -/

variable {a b i : Int}

theorem signed_eq_ok (h : IsSigned i) : signed i = .ok i := if_pos h

theorem signed_eq_ok_of_nonneg (h0 : 0 ≤ i) (h : i < 2 ^ 63) : signed i = .ok i := signed_eq_ok ⟨by omega, h⟩

theorem sub_of_nonneg (ha0 : 0 ≤ a) (ha : a < 2 ^ 63) (hb0 : 0 ≤ b) (hb : b < 2 ^ 63) : sub a b = .ok (a - b) :=
  signed_eq_ok ⟨by omega, by omega⟩

/-- Only the least integer has no absolute value. -/
theorem abs_eq_ok (h : -2 ^ 63 < a) (h' : a < 2 ^ 63) : abs a = .ok a.natAbs := signed_eq_ok ⟨by omega, by omega⟩

theorem div_of_nonneg (ha0 : 0 ≤ a) (ha : a < 2 ^ 63) (hb : 0 < b) : div a b = .ok (a / b) := by
  have hle : a / b ≤ a := Int.ediv_le_self b ha0
  have h0 : 0 ≤ a / b := Int.ediv_nonneg ha0 (by omega)
  rw [div, if_neg (by omega), Int.tdiv_eq_ediv_of_nonneg ha0]
  exact signed_eq_ok_of_nonneg h0 (by omega)

/-- The quotient of the least integer and `-1` is the only one that is out of range. -/
theorem rem_eq_ok (ha : -2 ^ 63 < a) (ha' : a < 2 ^ 63) (hb : b ≠ 0) : rem a b = .ok (a.tmod b) := by
  have hle : (a.tdiv b).natAbs ≤ a.natAbs := Int.natAbs_tdiv_le_natAbs a b
  rw [rem, div, if_neg hb, signed_eq_ok ⟨by omega, by omega⟩]
  rfl

theorem bits_of_nonneg (h0 : 0 ≤ a) (h : a < 2 ^ 63) : bits a = a.toNat := by
  rw [bits, Int.emod_eq_of_lt h0 (by omega)]

end PathContainment.Machine
