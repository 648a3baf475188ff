import PathContainment.Proofs.Pattern.Invariant
import PathContainment.Proofs.Path.NormalForm

/-!
# Duplicates in a list of patterns

A set that is made of a list of paths keeps the first one of equal paths and leaves the others out
(`PatternSet.toList_ofList`). What is left out changes no answer: the set answers as all the paths of the list do one by
one (`PatternSet.contains_ofList`), since equal paths contain the same candidates. So two lists that have the same
paths, up to equality and in any order and number, lead to sets that give the same answers
(`SameUpToEquality.contains_ofList`).
-/

namespace PathContainment

/-! ### Lists without duplicates -/

section
variable {α : Type u} [BEq α] {l l' : List α}

theorem mem_of_mem_eraseDups {x : α} (h : x ∈ l.eraseDups) : x ∈ l := by
  induction hn : l.length using Nat.strongRecOn generalizing l with
  | ind n ih =>
    cases l with
    | nil => exact h
    | cons a l =>
      rw [List.eraseDups_cons] at h
      rcases List.mem_cons.1 h with rfl | h
      · exact List.mem_cons_self ..
      · have hlt : (l.filter fun b => !b == a).length < n := by
          rw [← hn]
          exact Nat.lt_succ_of_le (List.length_filter_le _ _)
        exact List.mem_cons_of_mem _ (List.mem_of_mem_filter (ih _ hlt h rfl))

theorem exists_mem_eraseDups [EquivBEq α] {x : α} (h : x ∈ l) : ∃ y ∈ l.eraseDups, (x == y) = true := by
  induction hn : l.length using Nat.strongRecOn generalizing l with
  | ind n ih =>
    cases l with
    | nil => cases h
    | cons a l =>
      rw [List.eraseDups_cons]
      cases hxa : x == a with
      | true => exact ⟨a, List.mem_cons_self .., hxa⟩
      | false =>
        have hx : x ∈ l.filter fun b => !b == a := by
          rcases List.mem_cons.1 h with rfl | h
          · rw [BEq.rfl] at hxa
            cases hxa
          · exact List.mem_filter.2 ⟨h, by rw [hxa]; rfl⟩
        have hlt : (l.filter fun b => !b == a).length < n := by
          rw [← hn]
          exact Nat.lt_succ_of_le (List.length_filter_le _ _)
        obtain ⟨y, hy, hxy⟩ := ih _ hlt hx rfl
        exact ⟨y, List.mem_cons_of_mem _ hy, hxy⟩

end

/-- Each entry of one list is equal to an entry of the other one. -/
def SameUpToEquality {α : Type u} [BEq α] (l l' : List α) : Prop :=
  (∀ x ∈ l, ∃ y ∈ l', (x == y) = true) ∧ ∀ y ∈ l', ∃ x ∈ l, (x == y) = true

namespace PatternSet

section
variable {P : Type u} [Pattern P] [LawfulPattern P] {set : PatternSet P}

/-- Inserting patterns one after the other adds the first one of equal patterns that are not there yet. -/
theorem Consistent.toList_extend (h : set.Consistent)
    (heq : ∀ y z : P, (steps y == steps z) = true → (y == z) = true) (l : List P) :
    (set.extend l).toList = set.toList ++ (l.filter fun x => !set.mem x).eraseDups := by
  induction l generalizing set with
  | nil =>
    rw [List.filter_nil, List.eraseDups_nil, List.append_nil]
    rfl
  | cons x l ih =>
    have hextend : set.extend (x :: l) = (set.insert x).1.extend l := rfl
    rw [hextend, ih (h.insert x)]
    cases hmem : set.mem x with
    | true =>
      have hsame : (set.insert x).1 = set := by
        unfold PatternSet.insert
        rw [if_pos hmem]
      rw [hsame, List.filter_cons_of_neg (by simp [hmem])]
    | false =>
      have hlist := toList_insert ((h.insert_iff heq).2 hmem)
      have hmem' : ∀ y, (set.insert x).1.mem y = (set.mem y || y == x) := by
        intro y
        rw [mem, hlist, List.any_append, mem, BEq.comm]
        simp
      rw [hlist, List.filter_cons_of_pos (by simp [hmem]), List.eraseDups_cons, List.filter_filter, List.append_assoc]
      simp only [hmem', Bool.not_or, Bool.and_comm, List.singleton_append]

end

variable {l l' : List AnyPath} {q : AnyPath}

theorem toList_ofList (l : List AnyPath) : (ofList l).toList = l.eraseDups := by
  have h := (consistent_empty (P := AnyPath)).toList_extend (fun _ _ h => h) l
  simpa [ofList, mem, empty] using h

theorem consistent_ofList (l : List AnyPath) : (ofList l).Consistent := consistent_empty.extend l

/-- The set answers as all the paths do, duplicates included. -/
theorem contains_ofList (l : List AnyPath) (q : AnyPath) :
    (ofList l).contains q = Verdict.anyOf (fun p => p.contains q) l := by
  rw [contains_eq_anyOf q (consistent_ofList l), toList_ofList]
  refine le_antisymm (Verdict.anyOf_le_anyOf fun p hp => ?_) (Verdict.anyOf_le_anyOf fun p hp => ?_)
  · exact ⟨p, mem_of_mem_eraseDups hp, le_refl _⟩
  · obtain ⟨p', hp', heq⟩ := exists_mem_eraseDups hp
    exact ⟨p', hp', (Path.contains_congr_left heq q).le⟩

end PatternSet

namespace SameUpToEquality

variable {l l' : List AnyPath}

theorem symm (h : SameUpToEquality l l') : SameUpToEquality l' l :=
  ⟨fun y hy => (h.2 y hy).imp fun _ hx => ⟨hx.1, BEq.symm hx.2⟩,
    fun x hx => (h.1 x hx).imp fun _ hy => ⟨hy.1, BEq.symm hy.2⟩⟩

private theorem contains_le (h : SameUpToEquality l l') (q : AnyPath) :
    (PatternSet.ofList l).contains q ≤ (PatternSet.ofList l').contains q := by
  rw [PatternSet.contains_ofList, PatternSet.contains_ofList]
  refine Verdict.anyOf_le_anyOf fun x hx => ?_
  obtain ⟨y, hy, hxy⟩ := h.1 x hx
  exact ⟨y, hy, (Path.contains_congr_left hxy q).le⟩

theorem contains_ofList (h : SameUpToEquality l l') (q : AnyPath) :
    (PatternSet.ofList l).contains q = (PatternSet.ofList l').contains q :=
  le_antisymm (h.contains_le q) (h.symm.contains_le q)

end SameUpToEquality

end PathContainment
