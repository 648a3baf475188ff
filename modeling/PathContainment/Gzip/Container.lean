import PathContainment.Gzip.Inflate

/-!
# Gzip files

A gzip file is a header, a compressed stream, and a check of the bytes that come out of it: their cyclic redundancy
code and their number. Only the first file of several in a row is read, and what follows it is ignored.
-/

namespace PathContainment.Gzip

/-! ### The cyclic redundancy code -/

/-- One bit of the division by the polynomial of the code. -/
def crcShift (crc : UInt32) : UInt32 := if crc &&& 1 = 1 then (crc >>> 1) ^^^ 0xEDB88320 else crc >>> 1

def crcByte (crc : UInt32) (byte : UInt8) : UInt32 :=
  (List.range 8).foldl (fun crc _ => crcShift crc) (crc ^^^ byte.toUInt32)

/-- The cyclic redundancy code of some bytes. -/
def crc32 (bytes : List UInt8) : UInt32 := (bytes.foldl crcByte 0xFFFFFFFF) ^^^ 0xFFFFFFFF

/-! ### The header -/

/-- The bytes with which every gzip file begins. -/
def magic : List UInt8 := [0x1F, 0x8B]

/-- The most bytes that a part may have which a zero byte ends. -/
def maxPart : Nat := 65535

/-- The bytes after the first zero byte, which has at most `limit` bytes before it. -/
def afterZero : (limit : Nat) → List UInt8 → Option (List UInt8)
  | _, [] => none
  | 0, byte :: rest => if byte = 0 then some rest else none
  | limit + 1, byte :: rest => if byte = 0 then some rest else afterZero limit rest

/-- The bytes after a part whose length is given in its first two bytes. -/
def afterExtra : List UInt8 → Option (List UInt8)
  | low :: high :: rest =>
    let count := low.toNat + 256 * high.toNat
    if count ≤ rest.length then some (rest.drop count) else none
  | _ => none

/-- The bytes after the check of the header, which are the lower half of the code of the bytes before it. -/
def afterHeaderCheck (file rest : List UInt8) : Option (List UInt8) :=
  match rest with
  | low :: high :: rest' =>
    let header := file.take (file.length - rest.length)
    if (crc32 header).toNat % 0x10000 = low.toNat + 256 * high.toNat then some rest' else none
  | _ => none

/-- The bytes after the header, whose fourth byte tells which optional parts there are. -/
def afterHeader (file : List UInt8) : Option (List UInt8) :=
  match file with
  | 0x1F :: 0x8B :: 8 :: flags :: _ :: _ :: _ :: _ :: _ :: _ :: rest => do
    if flags &&& 0xE0 ≠ 0 then none
    let rest ← if flags &&& 4 ≠ 0 then afterExtra rest else some rest
    let rest ← if flags &&& 8 ≠ 0 then afterZero maxPart rest else some rest
    let rest ← if flags &&& 16 ≠ 0 then afterZero maxPart rest else some rest
    if flags &&& 2 ≠ 0 then afterHeaderCheck file rest else some rest
  | _ => none

/-- The uncompressed bytes of a gzip file, absent if the file is damaged. -/
def decompress (file : List UInt8) : Option (List UInt8) := do
  let (out, bits) ← inflate (bitsOfBytes (← afterHeader file))
  let (crc, bits) ← number 32 (toByteBoundary bits)
  let (size, _) ← number 32 bits
  if (crc32 out.toList).toNat = crc ∧ out.size % 0x100000000 = size then some out.toList else none

end PathContainment.Gzip
