import PathContainment.SortedSet

/-!
# Members of sets

The questions asked of a set, in terms of the list of its members, which has no repetitions.
-/

namespace PathContainment

/-- A measure is bounded on the members of a list. -/
theorem exists_bound {α : Type u} (f : α → Nat) (l : List α) : ∃ m, ∀ a ∈ l, f a ≤ m := by
  induction l with
  | nil => exact ⟨0, fun a ha => by cases ha⟩
  | cons a l ih =>
    obtain ⟨m, hm⟩ := ih
    refine ⟨max (f a) m, fun b hb => ?_⟩
    rcases List.mem_cons.1 hb with rfl | hb
    · exact Nat.le_max_left _ _
    · have := hm b hb
      omega

namespace SortedSet

variable {α : Type u} [LT α] {s t : SortedSet α} {a : α}

theorem contains_iff [DecidableEq α] : s.contains a = true ↔ a ∈ s.toList := decide_eq_true_iff

theorem subset_iff [DecidableEq α] : s.subset t = true ↔ ∀ a ∈ s.toList, a ∈ t.toList := by
  simp only [subset, List.all_eq_true, contains_iff]

theorem only?_eq_some_iff : s.only? = some a ↔ s.toList = [a] := by
  unfold only?
  split
  · rename_i b hb
    rw [hb]; simp
  · rename_i h
    constructor
    · intro hn; cases hn
    · intro hs; exact absurd hs (h a)

theorem only?_eq_none_iff : s.only? = none ↔ s.size ≠ 1 := by
  unfold only? size
  split
  · rename_i b hb
    rw [hb]; simp
  · rename_i h
    refine iff_of_true rfl fun hl => ?_
    obtain ⟨a, ha⟩ := List.length_eq_one_iff.1 hl
    exact h a ha

theorem exists_only?_of_size (h : s.size = 1) : ∃ a, s.only? = some a :=
  Option.ne_none_iff_exists'.1 fun hnone => only?_eq_none_iff.1 hnone h

theorem size_of_only? (h : s.only? = some a) : s.size = 1 := by
  rw [size, only?_eq_some_iff.1 h]
  rfl

theorem two_le_size (hs : s.toList ≠ []) (h : s.only? = none) : 2 ≤ s.size := by
  have hone : s.toList.length ≠ 1 := only?_eq_none_iff.1 h
  have hpos := List.length_pos_iff.2 hs
  unfold size
  omega

/-- A set that is not empty has a single member exactly when all its members are equal. -/
theorem only?_eq_some_iff_forall [Std.Irrefl (α := α) (· < ·)] (hs : s.toList ≠ []) :
    s.only? = some a ↔ ∀ b ∈ s.toList, b = a := by
  rw [only?_eq_some_iff]
  constructor
  · intro h b hb
    rw [h] at hb
    exact List.mem_singleton.1 hb
  · intro h
    have hi := s.increasing
    match hl : s.toList with
    | [] => exact absurd hl hs
    | [b] => rw [h b (by rw [hl]; exact List.mem_cons_self ..)]
    | b :: c :: rest =>
      have hb := h b (by rw [hl]; simp)
      have hc := h c (by rw [hl]; simp)
      rw [hl, hb, hc] at hi
      exact absurd ((List.pairwise_cons.1 hi).1 a (List.mem_cons_self ..)) (Std.Irrefl.irrefl a)

/-! ### The set of the members of a list -/

section OfList

variable [DecidableLT α] {l : List α}

private theorem insertInto_ne_nil (a : α) (l : List α) : insertInto a l ≠ [] := by
  unfold insertInto
  split
  · exact List.cons_ne_nil _ _
  · split
    · exact List.cons_ne_nil _ _
    · split <;> exact List.cons_ne_nil _ _

private theorem foldr_insertInto (hl : l.Pairwise (· < ·)) : l.foldr insertInto [] = l := by
  induction l with
  | nil => rfl
  | cons a l ih =>
    obtain ⟨ha, hl⟩ := List.pairwise_cons.1 hl
    rw [List.foldr_cons, ih hl]
    cases l with
    | nil => rfl
    | cons b l => exact if_pos (ha b (List.mem_cons_self ..))

variable [LE α] [Std.IsLinearOrder α] [Std.LawfulOrderLT α]

theorem mem_of_mem_ofList (h : a ∈ (ofList l).toList) : a ∈ l := by
  induction l with
  | nil => cases h
  | cons b l ih =>
    rcases mem_of_mem_insertInto h with rfl | h
    · exact List.mem_cons_self ..
    · exact List.mem_cons_of_mem _ (ih h)

theorem isEmpty_ofList : (ofList l).isEmpty = l.isEmpty := by
  cases l with
  | nil => rfl
  | cons a l => exact List.isEmpty_eq_false_iff.2 (insertInto_ne_nil a _)

/-- Listing the members of a set and collecting them again leads back to the set. -/
theorem ofList_toList (s : SortedSet α) : ofList s.toList = s := by
  cases s with
  | mk l hl =>
    simp only [ofList, mk.injEq]
    exact foldr_insertInto hl

end OfList

end SortedSet

end PathContainment
