/-!
# Decimal numbers

Numbers are written in the shortest decimal form, with a minus sign in front of negative ones, and read in any
decimal form: leading zeros and a plus sign are allowed, and the number has to be a 64-bit integer.
-/

namespace PathContainment.Decimal

def ofNat (n : Nat) : List Char := Nat.toDigits 10 n

def ofWord (i : Int64) : List Char :=
  if i < 0 then '-' :: ofNat i.toInt.natAbs else ofNat i.toInt.natAbs

/-- The value of a text that consists of decimal digits, at least one of them. -/
def digits? (l : List Char) : Option Nat :=
  if l ≠ [] ∧ l.all Char.isDigit then some (Nat.ofDigitChars 10 l 0) else none

/-- The value of decimal digits after at most one sign. -/
def integer? : List Char → Option Int
  | '+' :: rest => (digits? rest).map Int.ofNat
  | '-' :: rest => (digits? rest).map fun n => -Int.ofNat n
  | l => (digits? l).map Int.ofNat

/-- The 64-bit integer a text denotes. -/
def word? (l : List Char) : Option Int64 :=
  (integer? l).bind fun n =>
    if Int64.minValue.toInt ≤ n ∧ n ≤ Int64.maxValue.toInt then some (Int64.ofInt n) else none

end PathContainment.Decimal
