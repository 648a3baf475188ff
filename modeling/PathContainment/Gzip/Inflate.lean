import PathContainment.Gzip.PrefixCode

/-!
# Inflating compressed bytes

A compressed stream is a sequence of blocks. A block is a stretch of bytes as they are, or a sequence of symbols
under two prefix codes, which are fixed or are described at the start of the block. A symbol is a byte, the end of
the block, or the length of a repetition of earlier bytes, which the distance back to them follows. A distance may
reach back before the first byte: the bytes there are zeros.
-/

namespace PathContainment.Gzip

/-! ### Symbols -/

/-- The shortest length and the number of extra bits for the symbols from `257` on. -/
@[irreducible] def lengthTable : List (Nat × Nat) :=
  [(3, 0), (4, 0), (5, 0), (6, 0), (7, 0), (8, 0), (9, 0), (10, 0), (11, 1), (13, 1), (15, 1), (17, 1), (19, 2),
   (23, 2), (27, 2), (31, 2), (35, 3), (43, 3), (51, 3), (59, 3), (67, 4), (83, 4), (99, 4), (115, 4), (131, 5),
   (163, 5), (195, 5), (227, 5), (258, 0)]

/-- The shortest distance and the number of extra bits for the symbols of distances. -/
@[irreducible] def distanceTable : List (Nat × Nat) :=
  [(1, 0), (2, 0), (3, 0), (4, 0), (5, 1), (7, 1), (9, 2), (13, 2), (17, 3), (25, 3), (33, 4), (49, 4), (65, 5),
   (97, 5), (129, 6), (193, 6), (257, 7), (385, 7), (513, 8), (769, 8), (1025, 9), (1537, 9), (2049, 10), (3073, 10),
   (4097, 11), (6145, 11), (8193, 12), (12289, 12), (16385, 13), (24577, 13)]

/-- The value that an entry of a table and the extra bits in the stream stand for. -/
def extended (table : List (Nat × Nat)) (entry : Nat) (bits : List Bool) : Option (Nat × List Bool) := do
  let (base, width) ← table[entry]?
  let (extra, bits) ← number width bits
  return (base + extra, bits)

theorem length_extended_le {table : List (Nat × Nat)} {entry n : Nat} {bits rest : List Bool}
    (h : extended table entry bits = some (n, rest)) : rest.length ≤ bits.length := by
  obtain ⟨⟨base, width⟩, -, h⟩ := Option.bind_eq_some_iff.1 h
  obtain ⟨⟨extra, r⟩, hn, h⟩ := Option.bind_eq_some_iff.1 h
  cases h
  exact length_number_le hn

/-- What a symbol of a block stands for. -/
inductive Meaning where
  | byte (b : UInt8)
  | stop
  /-- A repetition whose length has an entry in the table of lengths. -/
  | repetition (entry : Nat)

def Meaning.ofSymbol (s : Nat) : Meaning :=
  if s < 256 then byte s.toUInt8 else if s = 256 then stop else repetition (s - 257)

/-- The codes for bytes and lengths, and for distances. -/
structure Codes where
  literals : PrefixCode
  distances : PrefixCode

/-- Reads what follows the symbol of a length: its extra bits and the distance. -/
def repetition (codes : Codes) (entry : Nat) (bits : List Bool) : Option ((Nat × Nat) × List Bool) := do
  let (length, bits) ← extended lengthTable entry bits
  let (d, bits) ← codes.distances.read bits
  let (distance, bits) ← extended distanceTable d bits
  return ((length, distance), bits)

theorem length_repetition_le {codes : Codes} {entry : Nat} {r : Nat × Nat} {bits rest : List Bool}
    (h : repetition codes entry bits = some (r, rest)) : rest.length ≤ bits.length := by
  obtain ⟨⟨length, b₁⟩, h₁, h⟩ := Option.bind_eq_some_iff.1 h
  obtain ⟨⟨d, b₂⟩, h₂, h⟩ := Option.bind_eq_some_iff.1 h
  obtain ⟨⟨distance, b₃⟩, h₃, h⟩ := Option.bind_eq_some_iff.1 h
  cases h
  exact Nat.le_trans (length_extended_le h₃)
    (Nat.le_trans (Nat.le_of_lt (PrefixCode.length_read_lt h₂)) (length_extended_le h₁))

/-- The byte at a distance back from the end. What lies before the first byte counts as zeros. -/
def byteBack (out : Array UInt8) (distance : Nat) : UInt8 :=
  if distance ≤ out.size then out.getD (out.size - distance) 0 else 0

/-- Repeats bytes from a distance back. A repetition may run into the bytes it writes. -/
def repeatBack (distance : Nat) : Nat → Array UInt8 → Array UInt8
  | 0, out => out
  | length + 1, out => repeatBack distance length (out.push (byteBack out distance))

set_option linter.unusedVariables false in
/-- Reads symbols to the end of a block. -/
def symbols (codes : Codes) (bits : List Bool) (out : Array UInt8) : Option (Array UInt8 × List Bool) :=
  match hs : codes.literals.read bits with
  | none => none
  | some (s, rest) =>
    match Meaning.ofSymbol s with
    | .byte b => symbols codes rest (out.push b)
    | .stop => some (out, rest)
    | .repetition entry =>
      match hr : repetition codes entry rest with
      | none => none
      | some ((length, distance), rest') => symbols codes rest' (repeatBack distance length out)
termination_by bits.length
decreasing_by
  · exact PrefixCode.length_read_lt hs
  · exact Nat.lt_of_le_of_lt (length_repetition_le hr) (PrefixCode.length_read_lt hs)

/-! ### The codes of a block -/

/-- The codes that need no description. -/
def fixedCodes? : Option Codes := do
  let literals ← PrefixCode.ofLengths? false
    (List.replicate 144 8 ++ List.replicate 112 9 ++ List.replicate 24 7 ++ List.replicate 8 8)
  let distances ← PrefixCode.ofLengths? false (List.replicate 32 5)
  return { literals, distances }

/-- The order in which the lengths of the code words for lengths are listed. -/
def lengthOrder : List Nat := [16, 17, 18, 0, 8, 7, 9, 6, 10, 5, 11, 4, 12, 3, 13, 2, 14, 1, 15]

/-- Reads numbers of three bits. -/
def shortNumbers : Nat → List Bool → Option (List Nat × List Bool)
  | 0, bits => some ([], bits)
  | count + 1, bits => do
    let (n, bits) ← number 3 bits
    let (rest, bits) ← shortNumbers count bits
    return (n :: rest, bits)

/-- What one symbol adds to a list of lengths of code words: a length, the last length a few times, or zeros. -/
def addedLengths (lengths : Array Nat) (s : Nat) (bits : List Bool) : Option (List Nat × List Bool) :=
  if s < 16 then some ([s], bits)
  else if s = 16 then do
    let last ← lengths.back?
    let (extra, bits) ← number 2 bits
    return (List.replicate (3 + extra) last, bits)
  else if s = 17 then do
    let (extra, bits) ← number 3 bits
    return (List.replicate (3 + extra) 0, bits)
  else do
    let (extra, bits) ← number 7 bits
    return (List.replicate (11 + extra) 0, bits)

/-- Reads lengths of code words up to their total number. Every symbol adds at least one, so that `reads` need not be
more than that number. -/
def codeLengths (code : PrefixCode) (total : Nat) :
    (reads : Nat) → Array Nat → List Bool → Option (List Nat × List Bool)
  | 0, lengths, bits => if lengths.size = total then some (lengths.toList, bits) else none
  | reads + 1, lengths, bits =>
    if lengths.size = total then some (lengths.toList, bits)
    else if total < lengths.size then none
    else do
      let (s, bits) ← code.read bits
      let (added, bits) ← addedLengths lengths s bits
      codeLengths code total reads (lengths ++ added.toArray) bits

/-- Reads the description of the codes of a block. -/
def describedCodes (bits : List Bool) : Option (Codes × List Bool) := do
  let (literalCount, bits) ← number 5 bits
  let (distanceCount, bits) ← number 5 bits
  let (lengthCount, bits) ← number 4 bits
  let (literalCount, distanceCount) := (literalCount + 257, distanceCount + 1)
  if 286 < literalCount ∨ 30 < distanceCount then none
  let (listed, bits) ← shortNumbers (lengthCount + 4) bits
  let ofSymbol (s : Nat) : Nat := ((lengthOrder.zip listed).lookup s).getD 0
  let code ← PrefixCode.ofLengths? false ((List.range 19).map ofSymbol)
  let total := literalCount + distanceCount
  let (lengths, bits) ← codeLengths code total total #[] bits
  let literals ← PrefixCode.ofLengths? true (lengths.take literalCount)
  let distances ← PrefixCode.ofLengths? true (lengths.drop literalCount)
  return ({ literals, distances }, bits)

/-! ### Blocks -/

/-- Reads a block of bytes as they are. Their number is given twice, the second time with all bits changed. -/
def storedBlock (bits : List Bool) (out : Array UInt8) : Option (Array UInt8 × List Bool) := do
  let (count, bits) ← number 16 (toByteBoundary bits)
  let (complement, bits) ← number 16 bits
  if count + complement ≠ 0xFFFF then none
  let (stored, bits) ← bytes count bits
  return (out ++ stored.toArray, bits)

/-- Reads a block after its first bit. -/
def block (bits : List Bool) (out : Array UInt8) : Option (Array UInt8 × List Bool) := do
  let (kind, bits) ← number 2 bits
  match kind with
  | 0 => storedBlock bits out
  | 1 => symbols (← fixedCodes?) bits out
  | 2 =>
    let (codes, bits) ← describedCodes bits
    symbols codes bits out
  | _ => none

/-- Reads blocks up to the last one, whose first bit is set. Every block takes a bit, so that `count` need not be more
than the number of bits. -/
def blocks : (count : Nat) → List Bool → Array UInt8 → Option (Array UInt8 × List Bool)
  | 0, _, _ => none
  | _ + 1, [], _ => none
  | count + 1, isLast :: bits, out => do
    let (out, bits) ← block bits out
    if isLast then return (out, bits) else blocks count bits out

/-- Inflates a compressed stream and returns what follows it. -/
def inflate (bits : List Bool) : Option (Array UInt8 × List Bool) := blocks bits.length bits #[]

end PathContainment.Gzip
