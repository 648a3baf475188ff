import PathContainment.Element.Basic

/-!
# Hashes of elements

A hash function is given an element piece by piece: which of the eleven kinds it is of, and then what it consists of.
Of a slice it is given the start with the default filled in, because a slice that leaves out the default start is equal
to the one that writes it. The pieces are `Element.hashInput`, whatever the function makes of them.
-/

namespace PathContainment

/-- A piece of what a hash function is given. -/
inductive HashPiece where
  /-- The position of an alternative among those of its type. -/
  | alternative (n : Nat)
  /-- The number of entries that follow. -/
  | size (n : Nat)
  | index (i : Nat)
  | integer (i : Int64)
  | text (s : String)
  deriving DecidableEq, Hashable, Repr

namespace HashPiece

def ofOption : Option Int64 → List HashPiece
  | none => [alternative 0]
  | some i => [alternative 1, integer i]

end HashPiece

namespace Slice

def hashInput (s : Slice) : List HashPiece :=
  HashPiece.ofOption s.effectiveStart ++ HashPiece.ofOption s.stop ++ [.integer s.step]

end Slice

namespace Element

def hashInput : Element → List HashPiece
  | root => [.alternative 0]
  | property name => [.alternative 1, .text name]
  | anyProperty => [.alternative 2]
  | properties names => .alternative 3 :: .size names.size :: names.toList.map .text
  | index i => [.alternative 4, .index i]
  | anyIndex => [.alternative 5]
  | indexes is => .alternative 6 :: .size is.size :: is.toList.map .index
  | slice s => .alternative 7 :: s.hashInput
  | expression text => [.alternative 8, .text text]
  | filter text => [.alternative 9, .text text]
  | descent inner => .alternative 10 :: inner.hashInput

instance : Hashable Element := ⟨fun e => hash e.hashInput⟩

end Element

end PathContainment
