import PathContainment.Proofs.Pattern.Tree

/-!
# Storing and removing patterns

Both operations follow the elements of the pattern from node to node. They keep the nodes sound and change the
patterns below them by this one (`insert_spec`, `remove_spec`), where a pattern may be refused because of another one
with the same elements (`exists_beq_of_insert_eq_false`), and where removing it takes along the edges that lead to
nothing else.
-/

namespace PathContainment.Node

variable {P : Type u} [Pattern P] {node : Node P} {rest : P → List Element} {pattern : P}

/-! ### Storing a pattern -/

private theorem stored_insert_empty (pattern : P) (l : List Element) : (insert pattern l empty).2 = true := by
  induction l with
  | nil => rfl
  | cons e l ih =>
    rw [insert]
    cases he : e.bucket with
    | none => rfl
    | some B =>
      have hc : child? ((Node.empty : Node P).edges B) e = none := by cases B <;> rfl
      simp only [hc, Option.getD_none]
      exact ih

/-- Storing a pattern at a sound node adds it to the patterns, or it is refused and nothing changes. -/
theorem insert_spec (h : Sound rest node) (pattern : P) :
    (∃ node', insert pattern (rest pattern) node = (node', true) ∧ Sound rest node' ∧
      node'.patterns.Perm (pattern :: node.patterns)) ∨
    insert pattern (rest pattern) node = (node, false) := by
  generalize hl : rest pattern = l
  induction l generalizing rest node with
  | nil =>
    rw [insert]
    cases ht : node.terminal with
    | some t => exact .inr rfl
    | none =>
      refine .inl ⟨_, rfl, h.setTerminal fun x hx => ?_, ?_⟩
      · cases hx
        exact hl
      · rw [patterns_eq, patterns_eq, ht, Option.toList_none, List.append_nil]
        exact List.perm_append_singleton ..
  | cons e l ih =>
    rw [insert]
    cases he : e.bucket with
    | none =>
      dsimp only
      split
      · exact .inr rfl
      · refine .inl ⟨_, rfl, h.setDescents fun x hx => ?_, ?_⟩
        · rcases List.mem_append.1 hx with hx | hx
          · exact h.descents hx
          · rw [List.mem_singleton.1 hx]
            exact ⟨e, l, hl, he⟩
        · rw [patterns_eq, patterns_eq]
          refine ((List.perm_append_singleton pattern _).append_left _).append_right _ |>.trans ?_
          exact List.perm_middle.append_right _
    | some B =>
      dsimp only
      cases hc : child? (node.edges B) e with
      | none =>
        -- an edge is added, and nothing is refused below it
        have hnew := child?_eq_none_iff.1 hc
        rw [Option.getD_none, putChild_of_child?_eq_none hnew]
        have hstored := stored_insert_empty pattern l
        rcases ih (Sound.empty fun x => (rest x).tail) (by rw [hl]; rfl) with ⟨new, hins, hnewSound, hperm⟩ | hins
        · rw [patterns_empty] at hperm
          rw [hins]
          refine .inl ⟨_, rfl, h.append hnew he hnewSound ?_ fun x hx => ?_, patterns_setEdges_perm ?_⟩
          · exact fun hnil => by simpa [hnil] using hperm.length_eq
          · rw [List.mem_singleton.1 (hperm.subset hx)]
            exact ⟨e, l, hl, BEq.rfl⟩
          · rw [patternsBelow_append, patternsBelow, patternsBelow, List.append_nil]
            exact (hperm.append_left _).trans (List.perm_append_singleton ..)
        · rw [hins] at hstored
          cases hstored
      | some old =>
        -- the edge keeps its element, which is only equal to `e`
        obtain ⟨before, key, after, hsplit, hk, hb⟩ := exists_split_of_child? hc
        have hedge : (key, old) ∈ node.edges B := by rw [hsplit]; simp
        rw [Option.getD_some, hsplit, putChild_split hk hb]
        rcases ih (h.child hedge) (by rw [hl]; rfl) with ⟨new, hins, hnewSound, hperm⟩ | hins
        · rw [hins]
          refine .inl ⟨_, rfl, h.replace hsplit hnewSound ?_ fun x hx => ?_, patterns_setEdges_perm ?_⟩
          · exact fun hnil => by simpa [hnil] using hperm.length_eq
          · rcases List.mem_cons.1 (hperm.subset hx) with rfl | hx
            · exact ⟨e, l, hl, hk⟩
            · exact (h.edges B).leads _ hedge x hx
          · rw [hsplit]
            exact patternsBelow_replace_perm hperm
        · rw [hins]
          right
          rw [← hsplit, setEdges_edges]

/-- A pattern is refused only if one with equal elements is stored already. With a recursive descent among the elements
the stored pattern is even equal to the refused one. -/
theorem exists_beq_of_insert_eq_false (h : Sound rest node) (pattern : P)
    (hrest : ∀ y, (y == pattern) = true → (rest y == rest pattern) = true)
    (hins : (insert pattern (rest pattern) node).2 = false) :
    ∃ y ∈ node.patterns, (rest y == rest pattern) = true ∧
      ((y == pattern) = true ∨ ∀ e ∈ rest pattern, e.isDescent = false) := by
  generalize hl : rest pattern = l at hins hrest ⊢
  induction l generalizing rest node with
  | nil =>
    rw [insert] at hins
    cases ht : node.terminal with
    | none =>
      rw [ht] at hins
      cases hins
    | some t =>
      refine ⟨t, mem_patterns.2 (.inr (.inr ht)), ?_, .inr fun e he => by cases he⟩
      rw [h.terminal ht]
      rfl
  | cons e l ih =>
    rw [insert] at hins
    cases he : e.bucket with
    | none =>
      rw [he] at hins
      dsimp only at hins
      split at hins
      · rename_i hany
        obtain ⟨y, hy, heq⟩ := List.any_eq_true.1 hany
        exact ⟨y, mem_patterns.2 (.inr (.inl hy)), hrest y heq, .inl heq⟩
      · cases hins
    | some B =>
      rw [he] at hins
      dsimp only at hins
      cases hc : child? (node.edges B) e with
      | none =>
        -- a new node is empty and refuses nothing
        rw [hc, Option.getD_none, stored_insert_empty] at hins
        cases hins
      | some old =>
        rw [hc, Option.getD_some] at hins
        obtain ⟨key, hedge, hk⟩ := exists_mem_of_child? hc
        have htail : ∀ y, (y == pattern) = true → ((rest y).tail == l) = true := by
          intro y hy
          obtain ⟨e', l', hr, -, hll⟩ := Element.exists_cons_of_beq_cons (hrest y hy)
          rwa [hr]
        obtain ⟨y, hy, hyl, hor⟩ := ih (h.child hedge) (by rw [hl]; rfl) hins htail
        refine ⟨y, mem_patterns.2 (.inl ⟨B, _, hedge, hy⟩), ?_, ?_⟩
        · obtain ⟨e', l', hr, he'⟩ := (h.edges B).leads _ hedge y hy
          rw [hr, List.tail_cons] at hyl
          rw [hr, List.cons_beq_cons, Bool.and_eq_true]
          exact ⟨BEq.trans he' (BEq.symm hk), hyl⟩
        · exact hor.imp_right fun hplain =>
            List.forall_mem_cons.2 ⟨Element.isDescent_eq_false_of_bucket he, hplain⟩

/-- Without a recursive descent, a pattern is refused as soon as one with equal elements is stored: both end at the
same node. -/
theorem insert_eq_false_of_beq {y : P} (h : Sound rest node) (pattern : P) (hy : y ∈ node.patterns)
    (heq : (rest y == rest pattern) = true) (hplain : ∀ e ∈ rest pattern, e.isDescent = false) :
    (insert pattern (rest pattern) node).2 = false := by
  generalize hl : rest pattern = l at heq hplain
  induction l generalizing rest node with
  | nil =>
    rw [insert, terminal_of_mem h hy (Element.eq_nil_of_beq_nil heq)]
    rfl
  | cons e l ih =>
    obtain ⟨hed, hplain⟩ := List.forall_mem_cons.1 hplain
    obtain ⟨e', l', hr, hee, hll⟩ := Element.exists_cons_of_beq_cons heq
    rw [insert]
    cases he : e.bucket with
    | none =>
      rw [Element.isDescent_of_bucket_eq_none he] at hed
      cases hed
    | some B =>
      obtain ⟨old, hc, hyold⟩ := exists_child_of_mem h hy hr (BEq.symm hee) he
      dsimp only
      rw [hc, Option.getD_some]
      exact ih (h.of_child? hc) hyold (by rw [hl]; rfl) (by rw [hr]; exact hll) hplain

/-! ### Removing a pattern -/

/-- Removing a pattern takes it off the patterns of a sound node, if an equal one is there. -/
theorem remove_spec {y : P} (h : Sound rest node) (hy : y ∈ node.patterns) (heq : (y == pattern) = true)
    (hrest : (rest y == rest pattern) = true) :
    ∃ node' z, remove pattern (rest pattern) node = (node', true) ∧ Sound rest node' ∧ (z == pattern) = true ∧
      node.patterns.Perm (z :: node'.patterns) := by
  generalize hl : rest pattern = l at hrest
  induction l generalizing rest node with
  | nil =>
    have ht := terminal_of_mem h hy (Element.eq_nil_of_beq_nil hrest)
    rw [remove, ht, Option.any_some, heq, if_pos rfl]
    refine ⟨_, y, rfl, h.setTerminal (fun x hx => by cases hx), heq, ?_⟩
    rw [patterns_eq, patterns_eq, ht, Option.toList_none, List.append_nil]
    exact List.perm_append_singleton ..
  | cons e l ih =>
    obtain ⟨e', l', hr, hee, hll⟩ := Element.exists_cons_of_beq_cons hrest
    rw [remove]
    cases he : e.bucket with
    | none =>
      have hyd := mem_descents_of_mem h hy hr ((Element.bucket_congr hee).trans he)
      have hany : node.descents.any (· == pattern) = true := List.any_eq_true.2 ⟨y, hyd, heq⟩
      obtain ⟨z, l₁, l₂, -, hz, hdesc, herase⟩ := List.exists_of_eraseP (p := (· == pattern)) hyd heq
      dsimp only
      rw [if_pos hany, herase]
      refine ⟨_, z, rfl, h.setDescents fun x hx => h.descents ?_, hz, ?_⟩
      · rw [hdesc]
        rcases List.mem_append.1 hx with hx | hx
        · exact List.mem_append_left _ hx
        · exact List.mem_append_right _ (List.mem_cons_of_mem _ hx)
      · rw [patterns_eq, patterns_eq, hdesc]
        exact ((List.perm_middle.append_left _).trans List.perm_middle).append_right _
    | some B =>
      obtain ⟨old, hc, hyold⟩ := exists_child_of_mem h hy hr (BEq.symm hee) he
      obtain ⟨before, key, after, hsplit, hk, hb⟩ := exists_split_of_child? hc
      have hedge : (key, old) ∈ node.edges B := by rw [hsplit]; simp
      obtain ⟨new, z, hrem, hnewSound, hz, hperm⟩ :=
        ih (h.of_child? hc) hyold (by rw [hl]; rfl) (by rw [hr]; exact hll)
      dsimp only
      rw [hc]
      dsimp only
      rw [hrem, hsplit, putChild_split hk hb, dropChild_split hk hb]
      by_cases hempty : new.isEmpty = true
      · -- the pattern was the last one below its edge, which goes with it
        rw [(isEmpty_iff hnewSound).1 hempty] at hperm
        rw [if_neg (by simp), if_pos hempty]
        refine ⟨_, z, rfl, h.drop hsplit, hz, patterns_perm_setEdges ?_⟩
        rw [hsplit]
        exact patternsBelow_drop_perm hperm
      · rw [if_neg (by simp), if_neg hempty]
        refine ⟨_, z, rfl, ?_, hz, patterns_perm_setEdges ?_⟩
        · refine h.replace hsplit hnewSound (fun hnil => hempty ((isEmpty_iff hnewSound).2 hnil)) fun x hx => ?_
          exact (h.edges B).leads _ hedge x (hperm.symm.subset (List.mem_cons_of_mem _ hx))
        · rw [hsplit]
          exact patternsBelow_replace_perm hperm

end PathContainment.Node
