import PathContainment.Proofs.Pattern.Set

/-!
# What stays true of a set of patterns

The list and the tree of a set are changed one after the other. That they never come apart is the invariant
`PatternSet.Consistent`, which every run of commands keeps; here it is spelled out. The tree holds each pattern of the
list at exactly one place and nothing else, none of its edges leads to an empty node (`Node.Pruned`), a pattern that
is taken off the list is found in the tree, and what is refused leaves no trace (`PatternSet.state_of_run`).

`Node.patterns` goes through the places of a tree one by one, so that the number of places at which a pattern sits is
the number of times it is listed.
-/

namespace PathContainment

namespace Node

variable {P : Type u} {node : Node P} {rest : P → List Element}

/-- No edge at the node or anywhere below it leads to an empty node. -/
inductive Pruned : Node P → Prop
  | mk {node : Node P} :
      (∀ B, ∀ edge ∈ node.edges B, edge.2.isEmpty = false) →
      (∀ B, ∀ edge ∈ node.edges B, Pruned edge.2) → Pruned node

/-- A sound tree has no empty nodes, since some pattern lies below every edge. -/
theorem Sound.pruned (h : Sound rest node) : node.Pruned := by
  induction h with
  | mk hedges hchildren _ _ ih =>
    refine .mk (fun B edge he => ?_) ih
    have hne := (hedges B).ne_nil edge he
    rw [← Bool.not_eq_true, isEmpty_iff (hchildren B edge he)]
    exact hne

end Node

namespace PatternSet

variable {P : Type u} [Pattern P] {set : PatternSet P} {x : P}

theorem mem_iff : set.mem x = true ↔ ∃ y ∈ set.toList, (y == x) = true := List.any_eq_true

theorem mem_eq_false_iff : set.mem x = false ↔ ∀ y ∈ set.toList, (y == x) = false := by
  rw [← Bool.not_eq_true, mem_iff]
  simp

/-! ### Lists of different patterns -/

section
variable [LawfulPattern P] {l : List P}

/-- In a list of different patterns, only the first one that is equal to a given one is. -/
private theorem beq_eq_false_of_mem_tail {y : P} (hd : (y :: l).Pairwise fun x y => (x == y) = false)
    (hy : (y == x) = true) : ∀ z ∈ l, (z == x) = false := by
  intro z hz
  cases hzx : z == x with
  | false => rfl
  | true =>
    have hyz := (List.pairwise_cons.1 hd).1 z hz
    rw [BEq.trans hy (BEq.symm hzx)] at hyz
    cases hyz

private theorem countP_beq_of_distinct (hd : l.Pairwise fun x y => (x == y) = false) (x : P) :
    l.countP (· == x) = if l.any (· == x) then 1 else 0 := by
  induction l with
  | nil => rfl
  | cons y l ih =>
    cases hy : y == x with
    | true =>
      have hl : l.countP (· == x) = 0 := by
        rw [List.countP_eq_zero]
        intro z hz
        simp [beq_eq_false_of_mem_tail hd hy z hz]
      rw [List.countP_cons_of_pos (by simpa using hy), hl, List.any_cons, hy]
      rfl
    | false =>
      rw [List.countP_cons_of_neg (by simp [hy]), ih (List.pairwise_cons.1 hd).2, List.any_cons, hy,
        Bool.false_or]

/-- Leaving out the first pattern that is equal to a given one leaves all the others, in their order. -/
private theorem eraseP_beq_of_distinct (hd : l.Pairwise fun x y => (x == y) = false) (x : P) :
    l.eraseP (· == x) = l.filter fun y => !(y == x) := by
  induction l with
  | nil => rfl
  | cons y l ih =>
    cases hy : y == x with
    | true =>
      have hl : l.filter (fun y => !(y == x)) = l := by
        rw [List.filter_eq_self]
        intro z hz
        rw [beq_eq_false_of_mem_tail hd hy z hz]
        rfl
      rw [List.eraseP_cons_of_pos (by simpa using hy), List.filter_cons_of_neg (by simp [hy]), hl]
    | false =>
      rw [List.eraseP_cons_of_neg (by simp [hy]), List.filter_cons_of_pos (by simp [hy]),
        ih (List.pairwise_cons.1 hd).2]

end

/-! ### The tree beside the list -/

namespace Consistent

theorem isEmpty_tree (h : set.Consistent) : set.tree.isEmpty = set.isEmpty := by
  rw [Bool.eq_iff_iff, Node.isEmpty_iff h.sound, isEmpty, List.isEmpty_iff]
  constructor
  · intro hp
    exact (hp ▸ h.perm).nil_eq.symm
  · intro hl
    exact (hl ▸ h.perm).eq_nil

/-- A pattern that is not inserted leaves the set as it was. -/
theorem insert_eq_self (h : set.Consistent) (hins : (set.insert x).2 = false) : (set.insert x).1 = set := by
  unfold PatternSet.insert at hins ⊢
  split
  · rfl
  · rename_i hmem
    rw [if_neg hmem] at hins
    rcases Node.insert_spec h.sound x with ⟨tree, hstored, -, -⟩ | hrefused
    · rw [hstored] at hins
      cases hins
    · rw [hrefused]
      rfl

variable [LawfulPattern P]

/-- Each pattern of the set sits at one place of the tree. -/
theorem countP_tree (h : set.Consistent) (x : P) :
    set.tree.patterns.countP (· == x) = if set.mem x then 1 else 0 := by
  rw [h.perm.countP_eq, countP_beq_of_distinct h.distinct]
  rfl

/-- What is taken off the list is found in the tree. -/
theorem remove_tree (h : set.Consistent) (hmem : set.mem x = true) :
    (set.tree.remove x (steps x)).2 = true := by
  obtain ⟨y, hy, heq⟩ := mem_iff.1 hmem
  obtain ⟨tree, z, hrem, -⟩ :=
    Node.remove_spec h.sound (h.perm.symm.subset hy) heq (LawfulPattern.elements_beq heq)
  rw [hrem]

theorem toList_remove (h : set.Consistent) (x : P) :
    (set.remove x).1.toList = set.toList.filter fun y => !(y == x) := by
  unfold PatternSet.remove
  split
  · exact eraseP_beq_of_distinct h.distinct x
  · rename_i hmem
    rw [Bool.not_eq_true, mem_eq_false_iff] at hmem
    symm
    rw [List.filter_eq_self]
    intro y hy
    rw [hmem y hy]
    rfl

/-- Where patterns with equal elements are equal, only an equal pattern hinders the insertion. -/
theorem insert_iff (h : set.Consistent) (heq : ∀ y z : P, (steps y == steps z) = true → (y == z) = true) :
    (set.insert x).2 = true ↔ set.mem x = false := by
  unfold PatternSet.insert
  split
  · rename_i hmem
    simp [hmem]
  · rename_i hmem
    rw [Bool.not_eq_true] at hmem
    refine iff_of_true ?_ hmem
    cases hins : (set.tree.insert x (steps x)).2 with
    | true => rfl
    | false =>
      obtain ⟨y, hy, hyx, -⟩ := Node.exists_beq_of_insert_eq_false h.sound x
        (fun y hy => LawfulPattern.elements_beq hy) hins
      have hne := mem_eq_false_iff.1 hmem y (h.perm.subset hy)
      rw [heq y x hyx] at hne
      cases hne

end Consistent

/-- A pattern that is inserted comes after all the others. -/
theorem toList_insert (hins : (set.insert x).2 = true) : (set.insert x).1.toList = set.toList ++ [x] := by
  unfold PatternSet.insert at hins ⊢
  split
  · rename_i hmem
    rw [if_pos hmem] at hins
    cases hins
  · rename_i hmem
    rw [if_neg hmem] at hins
    exact if_pos hins

theorem remove_iff : (set.remove x).2 = true ↔ ∃ y ∈ set.toList, (y == x) = true := by
  rw [← mem_iff]
  unfold PatternSet.remove
  split
  · rename_i hmem
    simp [hmem]
  · rename_i hmem
    simp [hmem]

theorem remove_eq_self (hrem : (set.remove x).2 = false) : (set.remove x).1 = set := by
  unfold PatternSet.remove at hrem ⊢
  split
  · rename_i hmem
    rw [if_pos hmem] at hrem
    cases hrem
  · rfl

/-! ### After a run -/

/-- After every run of commands the tree holds the patterns of the list, each at one place, and has no empty nodes.
Removing a pattern succeeds exactly when an equal one is stored; it is then found in the tree as well, and the others
keep their order. Commands that do not succeed change nothing. If patterns are equal as soon as their elements are, as
paths are, then inserting one succeeds exactly when no equal one is stored, and puts it behind the others. -/
theorem state_of_run [LawfulPattern P] (commands : List (Command P)) (x : P) :
    let set := run commands
    set.tree.patterns.Perm set.toList ∧
    (set.tree.patterns.countP (· == x) = if set.mem x then 1 else 0) ∧
    set.tree.Pruned ∧ set.tree.isEmpty = set.isEmpty ∧
    (set.mem x = true → (set.tree.remove x (steps x)).2 = true) ∧
    ((set.insert x).2 = false → (set.insert x).1 = set) ∧
    ((set.remove x).2 = false → (set.remove x).1 = set) ∧
    ((set.remove x).2 = true ↔ ∃ y ∈ set.toList, (y == x) = true) ∧
    (set.remove x).1.toList = set.toList.filter (fun y => !(y == x)) ∧
    ((∀ y z : P, (steps y == steps z) = true → (y == z) = true) →
      ((set.insert x).2 = true ↔ ∀ y ∈ set.toList, (y == x) = false) ∧
      ((set.insert x).2 = true → (set.insert x).1.toList = set.toList ++ [x])) := by
  intro set
  have h : set.Consistent := consistent_run commands
  refine ⟨h.perm, h.countP_tree x, h.sound.pruned, h.isEmpty_tree, h.remove_tree, h.insert_eq_self,
    remove_eq_self, remove_iff, h.toList_remove x, fun heq => ⟨?_, toList_insert⟩⟩
  rw [h.insert_iff heq, mem_eq_false_iff]

/-- With the paths `$.a.b`, `$.a..c` and `$.a` stored and `$.a.b` removed again, `$.a` is refused and changes nothing,
removing it leaves `$.a..c`, and `$.a.b` can be inserted once more, behind the others. -/
theorem state_of_run_after_removal :
    let a : AnyPath := { elements := [.root, .property "a"], valid := by decide, admitted := rfl }
    let b : AnyPath := { elements := [.root, .property "a", .property "b"], valid := by decide, admitted := rfl }
    let c : AnyPath :=
      { elements := [.root, .property "a", .descent (.property "c")], valid := by decide, admitted := rfl }
    let set := run [.extend [b, c, a], .remove b]
    set.toList = [c, a] ∧ set.tree.Pruned ∧ (set.insert a).1 = set ∧ (set.tree.remove a (steps a)).2 = true ∧
      (set.remove a).1.toList = [c] ∧ (set.insert b).1.toList = [c, a, b] := by
  intro a b c set
  have hlist : set.toList = [c, a] := by decide +kernel
  have hne : (c == a) = false ∧ (c == b) = false ∧ (a == b) = false := by decide +kernel
  have haa : (a == a) = true := BEq.rfl
  obtain ⟨-, -, hpruned, -, hfound, hrefused, -, -, hremove, -⟩ :=
    state_of_run [.extend [b, c, a], .remove b] a
  obtain ⟨-, -, -, -, -, -, -, -, -, hinsert⟩ := state_of_run [.extend [b, c, a], .remove b] b
  obtain ⟨hstored, happend⟩ := hinsert fun _ _ h => h
  have hmem : set.mem a = true := mem_iff.2 ⟨a, by rw [hlist]; simp, haa⟩
  refine ⟨hlist, hpruned, hrefused ?_, hfound hmem, ?_, ?_⟩
  · unfold PatternSet.insert
    rw [if_pos hmem]
  · rw [hremove, hlist]
    simp [hne]
  · rw [happend (hstored.2 ?_), hlist]
    · rfl
    · intro y hy
      rw [hlist] at hy
      rcases List.mem_pair.1 hy with rfl | rfl
      · exact hne.2.1
      · exact hne.2.2

end PatternSet

end PathContainment
