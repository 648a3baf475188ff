/-!
# Streams of bits

A compressed text is read as a stream of bits, from the lowest bit of the first byte on. Numbers in the stream begin
with their lowest bit.
-/

namespace PathContainment.Gzip

/-- The bits of a byte from the lowest one on. -/
def bitsOfByte (byte : UInt8) : List Bool := (List.range 8).map byte.toNat.testBit

/-- The bits of a list of bytes. -/
def bitsOfBytes (bytes : List UInt8) : List Bool := bytes.flatMap bitsOfByte

/-- Reads a number of `width` bits. -/
def number : Nat → List Bool → Option (Nat × List Bool)
  | 0, bits => some (0, bits)
  | _ + 1, [] => none
  | width + 1, bit :: bits => (number width bits).map fun (n, rest) => (bit.toNat + 2 * n, rest)

/-- Reads bytes. -/
def bytes : Nat → List Bool → Option (List UInt8 × List Bool)
  | 0, bits => some ([], bits)
  | count + 1, bits => do
    let (byte, bits) ← number 8 bits
    let (rest, bits) ← bytes count bits
    return (byte.toUInt8 :: rest, bits)

/-- The bits from the next full byte on, in a stream of full bytes. -/
def toByteBoundary (bits : List Bool) : List Bool := bits.drop (bits.length % 8)

theorem length_number_le {width n : Nat} {bits rest : List Bool} (h : number width bits = some (n, rest)) :
    rest.length ≤ bits.length := by
  induction width generalizing bits n with
  | zero => cases h; exact Nat.le_refl _
  | succ width ih =>
    cases bits with
    | nil => cases h
    | cons bit bits =>
      obtain ⟨⟨m, r⟩, h', heq⟩ := Option.map_eq_some_iff.1 h
      cases heq
      exact Nat.le_succ_of_le (ih h')

end PathContainment.Gzip
