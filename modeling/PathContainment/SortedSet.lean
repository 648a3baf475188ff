/-!
# Finite sets as increasing lists

A finite set of names or of indexes is the strictly increasing list of its members, so that two sets with the
same members are equal and listing a set needs no sorting. `SortedSet.ofList` sorts and drops repetitions.
-/

namespace PathContainment

/-- A finite set, held as the strictly increasing list of its members. -/
structure SortedSet (α : Type u) [LT α] where
  toList : List α
  increasing : toList.Pairwise (· < ·)
  deriving DecidableEq

namespace SortedSet

section
variable {α : Type u} [LT α] [DecidableLT α]

/-- Inserts into an increasing list, unless the value is there already. -/
def insertInto (a : α) : List α → List α
  | [] => [a]
  | b :: rest => if a < b then a :: b :: rest else if b < a then b :: insertInto a rest else b :: rest

theorem mem_of_mem_insertInto {a x : α} {l : List α} (h : x ∈ insertInto a l) : x = a ∨ x ∈ l := by
  induction l with
  | nil => simpa [insertInto] using h
  | cons b rest ih =>
    unfold insertInto at h
    split at h
    · simpa using h
    · split at h
      · rcases List.mem_cons.1 h with rfl | h
        · exact .inr (by simp)
        · exact (ih h).imp_right (List.mem_cons_of_mem _)
      · exact .inr h

private theorem insertInto_increasing [LE α] [Std.IsLinearOrder α] [Std.LawfulOrderLT α] {a : α} {l : List α}
    (h : l.Pairwise (· < ·)) : (insertInto a l).Pairwise (· < ·) := by
  induction l with
  | nil => simp [insertInto]
  | cons b rest ih =>
    rw [List.pairwise_cons] at h
    unfold insertInto
    split
    · rename_i hab
      refine List.pairwise_cons.2 ⟨fun x hx => ?_, List.pairwise_cons.2 h⟩
      rcases List.mem_cons.1 hx with rfl | hx
      · exact hab
      · exact Std.lt_trans hab (h.1 x hx)
    · split
      · rename_i hba
        refine List.pairwise_cons.2 ⟨fun x hx => ?_, ih h.2⟩
        rcases mem_of_mem_insertInto hx with rfl | hx
        · exact hba
        · exact h.1 x hx
      · exact List.pairwise_cons.2 h

/-- The set of the members of a list, in whatever order and however often they are listed. -/
def ofList [LE α] [Std.IsLinearOrder α] [Std.LawfulOrderLT α] (l : List α) : SortedSet α where
  toList := l.foldr insertInto []
  increasing := by
    induction l with
    | nil => exact List.Pairwise.nil
    | cons a l ih => exact insertInto_increasing ih

end

variable {α : Type u} [LT α] [DecidableEq α]

def size (s : SortedSet α) : Nat := s.toList.length

def isEmpty (s : SortedSet α) : Bool := s.toList.isEmpty

def contains (s : SortedSet α) (a : α) : Bool := a ∈ s.toList

def subset (s t : SortedSet α) : Bool := s.toList.all t.contains

/-- The only member, when there is exactly one. -/
def only? (s : SortedSet α) : Option α :=
  match s.toList with
  | [a] => some a
  | _ => none

end SortedSet

end PathContainment
