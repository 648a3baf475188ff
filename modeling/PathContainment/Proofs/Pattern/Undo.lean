import PathContainment.Proofs.Pattern.Invariant

/-!
# Removing what was just inserted

An insertion adds at the end of a list: to the patterns of the set, and in the tree to the patterns that a node keeps
because of a recursive descent, or to the edges of a bucket, below which there are then new nodes for this pattern
only. So the removal of the pattern finds it at the end of the list and leaves everything in front of it in its order.
The edges that it drops are those that the insertion has added: every other edge leads to a node which was not empty
before (`Node.Pruned`), and which is again what it was.

Hence inserting a pattern that is not in the set and removing it again gives back the set, down to the order of the
edges in its tree (`PatternSet.remove_insert_of_run`).
-/

namespace PathContainment

/-- A value at the end of a list is taken off again, if the list has no equal one. -/
private theorem eraseP_append_self {α : Type u} [BEq α] [ReflBEq α] {l : List α} {a : α}
    (h : ∀ b ∈ l, (b == a) = false) : (l ++ [a]).eraseP (· == a) = l := by
  have hne : ∀ b ∈ l, ¬(b == a) = true := by
    intro b hb
    rw [h b hb]
    exact Bool.false_ne_true
  have hlast : [a].eraseP (· == a) = [] := List.eraseP_cons_of_pos BEq.rfl
  rw [List.eraseP_append_right _ hne, hlast, List.append_nil]

namespace Node

variable {P : Type u} {node : Node P} {B : Bucket}

theorem Pruned.empty : (Node.empty : Node P).Pruned := (Sound.empty fun _ => []).pruned

theorem Pruned.child (h : node.Pruned) {edge : Element × Node P} (he : edge ∈ node.edges B) :
    edge.2.isEmpty = false ∧ edge.2.Pruned := by
  cases h with
  | mk hne hchildren => exact ⟨hne B edge he, hchildren B edge he⟩

/-- Removing a pattern right after it was stored gives back the node. -/
theorem remove_insert [Pattern P] [ReflBEq P] (h : node.Pruned) (pattern : P) {l : List Element}
    (hins : (insert pattern l node).2 = true) : remove pattern l (insert pattern l node).1 = (node, true) := by
  induction l generalizing node with
  | nil =>
    rw [insert] at hins ⊢
    obtain ⟨exact, property, index, descents, terminal⟩ := node
    cases terminal with
    | some t => cases hins
    | none => simp only [Option.isSome_none, Bool.false_eq_true, ↓reduceIte, remove, Option.any_some, BEq.rfl]
  | cons e l ih =>
    rw [insert] at hins ⊢
    cases he : e.bucket with
    | none =>
      simp only [he] at hins ⊢
      obtain ⟨exact, property, index, descents, terminal⟩ := node
      by_cases hany : descents.any (· == pattern) = true
      · rw [if_pos hany] at hins
        cases hins
      · have hnew : ∀ x ∈ descents, (x == pattern) = false := by
          simpa using hany
        have hlast : (descents ++ [pattern]).any (· == pattern) = true := by simp
        simp only [hany, Bool.false_eq_true, ↓reduceIte, remove, he, hlast, eraseP_append_self hnew]
    | some B =>
      simp only [he] at hins ⊢
      cases hc : child? (node.edges B) e with
      | none =>
        -- the edge is new, and so it is dropped together with the nodes below it
        have hnew := child?_eq_none_iff.1 hc
        rw [hc, Option.getD_none] at hins
        have hput (new : Node P) : putChild (node.edges B) e new = node.edges B ++ [(e, new)] :=
          putChild_of_child?_eq_none hnew
        have hfound (new : Node P) : child? (node.edges B ++ [(e, new)]) e = some new := child?_split BEq.rfl hnew
        have hdrop (new : Node P) : dropChild (node.edges B ++ [(e, new)]) e = node.edges B := by
          rw [dropChild_split BEq.rfl hnew, List.append_nil]
        have hempty : (Node.empty : Node P).isEmpty = true := rfl
        rw [Option.getD_none, hput]
        simp only [remove, he, edges_setEdges, hfound, ih .empty hins, Bool.not_true, Bool.false_eq_true, ↓reduceIte,
          hempty, hdrop, setEdges_setEdges, setEdges_edges]
      | some old =>
        -- the edge was there before, with a node below it that is not empty
        obtain ⟨before, key, after, hsplit, hk, hb⟩ := exists_split_of_child? hc
        have hedge : (key, old) ∈ node.edges B := by rw [hsplit]; simp
        obtain ⟨hne, hold⟩ := h.child hedge
        rw [hc, Option.getD_some] at hins
        rw [Option.getD_some, hsplit, putChild_split hk hb]
        simp only [remove, he, edges_setEdges, child?_split hk hb, ih hold hins, Bool.not_true, Bool.false_eq_true,
          ↓reduceIte, hne, putChild_split hk hb, setEdges_setEdges]
        rw [← hsplit, setEdges_edges]

end Node

namespace PatternSet

variable {P : Type u} [Pattern P] [LawfulPattern P] {set : PatternSet P} {x : P}

/-- A pattern that was inserted can be removed, which gives back the set. -/
private theorem Consistent.remove_of_inserted (h : set.Consistent) (hx : set.mem x = false)
    (hins : (set.insert x).2 = true) : (set.insert x).1.remove x = (set, true) := by
  have hnew := mem_eq_false_iff.1 hx
  have hstored : (set.tree.insert x (steps x)).2 = true := by
    unfold PatternSet.insert at hins
    simpa only [hx, Bool.false_eq_true, ↓reduceIte] using hins
  have hinsert : (set.insert x).1 =
      { toList := set.toList ++ [x], tree := (set.tree.insert x (steps x)).1 } := by
    unfold PatternSet.insert
    simp only [hx, Bool.false_eq_true, ↓reduceIte, hstored]
  have hmem : (set.insert x).1.mem x = true := by
    rw [hinsert]
    exact mem_iff.2 ⟨x, by simp, BEq.rfl⟩
  have htree := Node.remove_insert h.sound.pruned x hstored
  unfold PatternSet.remove
  rw [if_pos hmem, hinsert]
  simp only [eraseP_append_self hnew, htree]

/-- Inserting a pattern that is not in the set and removing it again gives back the set. The removal succeeds if the
insertion did. -/
theorem Consistent.remove_insert (h : set.Consistent) (hx : set.mem x = false) :
    (set.insert x).1.remove x = (set, (set.insert x).2) := by
  cases hins : (set.insert x).2 with
  | true => exact h.remove_of_inserted hx hins
  | false =>
    rw [h.insert_eq_self hins]
    unfold PatternSet.remove
    simp only [hx, Bool.false_eq_true, ↓reduceIte]

/-- After every run of commands, inserting a pattern that is not in the set and removing it again gives back the set:
the same list, and the same tree with its edges and lists in the same order. If patterns are equal as soon as their
elements are, as paths are, the pattern has really been inserted in between. Whatever commands follow, the set answers
as it does without these two, and lists the patterns in the same order. -/
theorem remove_insert_of_run (commands : List (Command P)) (x : P) (hx : (run commands).mem x = false) :
    let set := run commands
    (set.insert x).1.remove x = (set, (set.insert x).2) ∧
    ((∀ y z : P, (steps y == steps z) = true → (y == z) = true) → (set.insert x).2 = true) ∧
    ∀ (later : List (Command P)) (q : AnyPath),
      (run (commands ++ .insert x :: .remove x :: later)).contains q = (run (commands ++ later)).contains q ∧
      (run (commands ++ .insert x :: .remove x :: later)).containing q = (run (commands ++ later)).containing q := by
  intro set
  have h : set.Consistent := consistent_run commands
  have hback := h.remove_insert hx
  refine ⟨hback, fun heq => (h.insert_iff heq).2 hx, fun later q => ?_⟩
  have hrun : run (commands ++ .insert x :: .remove x :: later) = run (commands ++ later) := by
    unfold run
    rw [List.foldl_append, List.foldl_append, List.foldl_cons, List.foldl_cons]
    show later.foldl apply ((set.insert x).1.remove x).1 = later.foldl apply set
    rw [hback]
  rw [hrun]
  exact ⟨rfl, rfl⟩

/-- With `$.a.b` and `$.a..c` stored, the path `$.a.b[*].d` takes two new nodes below that of `$.a.b`. They are gone
when it is removed. -/
theorem remove_insert_of_run_below_terminal :
    let b : AnyPath := { elements := [.root, .property "a", .property "b"], valid := by decide, admitted := rfl }
    let c : AnyPath :=
      { elements := [.root, .property "a", .descent (.property "c")], valid := by decide, admitted := rfl }
    let d : AnyPath :=
      { elements := [.root, .property "a", .property "b", .anyIndex, .property "d"], valid := by decide,
        admitted := rfl }
    let set := run [.extend [b, c]]
    set.mem d = false ∧ (set.insert d).2 = true ∧ (set.insert d).1.remove d = (set, true) := by
  intro b c d set
  have hmem : set.mem d = false := by decide +kernel
  obtain ⟨hback, hstored, -⟩ := remove_insert_of_run [.extend [b, c]] d hmem
  have hins : (set.insert d).2 = true := hstored fun _ _ h => h
  refine ⟨hmem, hins, ?_⟩
  rw [← hins]
  exact hback

end PatternSet

end PathContainment
