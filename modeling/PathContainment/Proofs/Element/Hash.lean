import Mathlib.Data.List.Basic
import PathContainment.Element.Hash
import PathContainment.Proofs.Element.Equality

/-!
# Hashes of equal elements

A hash function is given the same pieces of two elements exactly when they are equal (`hashInput_eq_iff`). So equal
elements have the same hash, whatever the function makes of the pieces, and different elements are not mixed up before
it gets to work.
-/

namespace PathContainment

namespace HashPiece

theorem ofOption_append_inj {a b : Option Int64} {l l' : List HashPiece} :
    ofOption a ++ l = ofOption b ++ l' ↔ a = b ∧ l = l' := by
  cases a <;> cases b <;> simp [ofOption]

variable {α : Type} [LT α] {s t : SortedSet α} {f : α → HashPiece}

theorem entries_inj (hf : Function.Injective f) :
    size s.size :: s.toList.map f = size t.size :: t.toList.map f ↔ s = t := by
  constructor
  · intro h
    have hlist : s.toList = t.toList := List.map_injective_iff.2 hf (List.cons.inj h).2
    cases s
    cases t
    cases hlist
    rfl
  · exact fun h => by rw [h]

end HashPiece

namespace Slice

theorem hashInput_eq_iff {s t : Slice} : s.hashInput = t.hashInput ↔ (s == t) = true := by
  rw [beq_iff, hashInput, hashInput, List.append_assoc, List.append_assoc, HashPiece.ofOption_append_inj,
    HashPiece.ofOption_append_inj]
  simp [canonical]

end Slice

namespace Element

variable {a b : Element}

/-- Two elements are told apart by what is hashed of them exactly when they are different. -/
theorem hashInput_eq_iff : a.hashInput = b.hashInput ↔ (a == b) = true := by
  rw [beq_iff]
  induction a generalizing b with
  | properties names =>
    cases b with
    | properties others =>
      have hf : Function.Injective HashPiece.text := fun _ _ h => HashPiece.text.inj h
      show _ ↔ properties names = properties others
      rw [hashInput, hashInput, List.cons.injEq, HashPiece.entries_inj hf, properties.injEq]
      exact and_iff_right rfl
    | _ => simp [hashInput, canonical]
  | indexes is =>
    cases b with
    | indexes js =>
      have hf : Function.Injective HashPiece.index := fun _ _ h => HashPiece.index.inj h
      show _ ↔ indexes is = indexes js
      rw [hashInput, hashInput, List.cons.injEq, HashPiece.entries_inj hf, indexes.injEq]
      exact and_iff_right rfl
    | _ => simp [hashInput, canonical]
  | slice s =>
    cases b with
    | slice t =>
      rw [hashInput, hashInput, List.cons.injEq, Slice.hashInput_eq_iff, Slice.beq_iff, canonical, canonical,
        slice.injEq]
      exact and_iff_right rfl
    | _ => simp [hashInput, canonical]
  | descent x ih =>
    cases b with
    | descent y =>
      rw [hashInput, hashInput, List.cons.injEq, ih, canonical, canonical, descent.injEq]
      exact and_iff_right rfl
    | _ => simp [hashInput, canonical]
  | _ => cases b <;> simp [hashInput, canonical]

instance : LawfulHashable Element where
  hash_eq a b h := by
    show hash a.hashInput = hash b.hashInput
    rw [hashInput_eq_iff.2 h]

end Element

end PathContainment
