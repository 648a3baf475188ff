import PathContainment.Proofs.Pattern.Edges

/-!
# The patterns of a tree

`node.patterns` lists the patterns that are stored below a node. A node is sound when every pattern is stored at the
place to which its elements lead: `rest` tells which elements of a pattern are left at the node, and an edge takes one
of them off. At a sound node a pattern is found by its elements (`terminal_of_mem`, `mem_descents_of_mem`,
`exists_child_of_mem`).
-/

namespace PathContainment.Node

variable {P : Type u}

mutual

/-- The patterns below a node. -/
def patterns : Node P → List P
  | ⟨exact, property, index, descents, terminal⟩ =>
    patternsBelow exact ++ patternsBelow property ++ patternsBelow index ++ descents ++ terminal.toList

/-- The patterns below edges. -/
def patternsBelow : List (Element × Node P) → List P
  | [] => []
  | (_, child) :: rest => child.patterns ++ patternsBelow rest

end

variable {node : Node P} {es : List (Element × Node P)} {B : Bucket} {x : P}

theorem patterns_eq (node : Node P) :
    node.patterns = patternsBelow node.exact ++ patternsBelow node.property ++ patternsBelow node.index ++
      node.descents ++ node.terminal.toList := by
  cases node
  rw [patterns]

theorem patternsBelow_eq (es : List (Element × Node P)) :
    patternsBelow es = es.flatMap fun edge => edge.2.patterns := by
  induction es with
  | nil => rw [patternsBelow]; rfl
  | cons edge es ih => rw [patternsBelow, ih]; rfl

theorem patternsBelow_append (es es' : List (Element × Node P)) :
    patternsBelow (es ++ es') = patternsBelow es ++ patternsBelow es' := by
  rw [patternsBelow_eq, patternsBelow_eq, patternsBelow_eq, List.flatMap_append]

theorem patternsBelow_replace_perm {before after : List (Element × Node P)} {key : Element} {old new : Node P}
    (h : new.patterns.Perm (x :: old.patterns)) :
    (patternsBelow (before ++ (key, new) :: after)).Perm
      (x :: patternsBelow (before ++ (key, old) :: after)) := by
  rw [patternsBelow_append, patternsBelow_append, patternsBelow, patternsBelow]
  exact ((h.append_right _).append_left _).trans List.perm_middle

theorem patternsBelow_drop_perm {before after : List (Element × Node P)} {key : Element} {old : Node P}
    (h : old.patterns.Perm [x]) :
    (patternsBelow (before ++ (key, old) :: after)).Perm (x :: patternsBelow (before ++ after)) := by
  rw [patternsBelow_append, patternsBelow_append, patternsBelow]
  exact ((h.append_right _).append_left _).trans List.perm_middle

theorem patterns_empty : (empty : Node P).patterns = [] := by
  simp [empty, patterns, patternsBelow]

theorem mem_patternsBelow : x ∈ patternsBelow es ↔ ∃ edge ∈ es, x ∈ edge.2.patterns := by
  rw [patternsBelow_eq, List.mem_flatMap]

theorem mem_patterns : x ∈ node.patterns ↔
    (∃ B, ∃ edge ∈ node.edges B, x ∈ edge.2.patterns) ∨ x ∈ node.descents ∨ node.terminal = some x := by
  rw [patterns_eq]
  simp only [List.mem_append, mem_patternsBelow, Option.mem_toList]
  constructor
  · rintro ((((h | h) | h) | h) | h)
    · exact .inl ⟨.exact, h⟩
    · exact .inl ⟨.property, h⟩
    · exact .inl ⟨.index, h⟩
    · exact .inr (.inl h)
    · exact .inr (.inr h)
  · rintro (⟨B, h⟩ | h | h)
    · cases B with
      | exact => exact .inl (.inl (.inl (.inl h)))
      | property => exact .inl (.inl (.inl (.inr h)))
      | index => exact .inl (.inl (.inr h))
    · exact .inl (.inr h)
    · exact .inr h

/-! ### Changing the edges of one bucket -/

@[simp] theorem edges_setEdges (node : Node P) (B : Bucket) : (node.setEdges B es).edges B = es := by
  cases B <;> rfl

theorem edges_setEdges_of_ne {B' : Bucket} (h : B' ≠ B) : (node.setEdges B es).edges B' = node.edges B' := by
  cases B <;> cases B' <;> first | rfl | exact absurd rfl h

@[simp] theorem descents_setEdges : (node.setEdges B es).descents = node.descents := by
  cases B <;> rfl

@[simp] theorem terminal_setEdges : (node.setEdges B es).terminal = node.terminal := by
  cases B <;> rfl

@[simp] theorem setEdges_edges : node.setEdges B (node.edges B) = node := by
  cases node
  cases B <;> rfl

@[simp] theorem setEdges_setEdges {es' : List (Element × Node P)} :
    (node.setEdges B es).setEdges B es' = node.setEdges B es' := by
  cases B <;> rfl

/-- One more pattern below the edges of a bucket is one more pattern below the node. -/
theorem patterns_setEdges_perm (h : (patternsBelow es).Perm (x :: patternsBelow (node.edges B))) :
    (node.setEdges B es).patterns.Perm (x :: node.patterns) := by
  rw [patterns_eq, patterns_eq]
  cases B with
  | exact => exact (((h.append_right _).append_right _).append_right _).append_right _
  | property =>
    refine ((((h.append_left _).append_right _).append_right _).append_right _).trans ?_
    exact (((List.perm_middle.append_right _).append_right _).append_right _)
  | index =>
    refine (((h.append_left _).append_right _).append_right _).trans ?_
    exact ((List.perm_middle.append_right _).append_right _)

/-- One pattern less below the edges of a bucket is one pattern less below the node. -/
theorem patterns_perm_setEdges (h : (patternsBelow (node.edges B)).Perm (x :: patternsBelow es)) :
    node.patterns.Perm (x :: (node.setEdges B es).patterns) := by
  have hperm : ((node.setEdges B es).setEdges B (node.edges B)).patterns.Perm
      (x :: (node.setEdges B es).patterns) := by
    apply patterns_setEdges_perm
    rw [edges_setEdges]
    exact h
  rwa [setEdges_setEdges, setEdges_edges] at hperm

/-! ### Sound nodes -/

/-- What the edges of a bucket have to be like at a node where `rest` tells the elements that are left. -/
structure EdgesFit (rest : P → List Element) (B : Bucket) (es : List (Element × Node P)) : Prop where
  distinct : DistinctKeys es
  bucket : ∀ edge ∈ es, edge.1.bucket = some B
  ne_nil : ∀ edge ∈ es, edge.2.patterns ≠ []
  leads : ∀ edge ∈ es, ∀ x ∈ edge.2.patterns, ∃ e l, rest x = e :: l ∧ (e == edge.1) = true

/-- Every pattern below the node is stored where its elements lead to. -/
inductive Sound : (P → List Element) → Node P → Prop
  | mk {rest : P → List Element} {node : Node P} :
      (∀ B, EdgesFit rest B (node.edges B)) →
      (∀ B, ∀ edge ∈ node.edges B, Sound (fun x => (rest x).tail) edge.2) →
      (∀ x ∈ node.descents, ∃ e l, rest x = e :: l ∧ e.bucket = none) →
      (∀ x, node.terminal = some x → rest x = []) → Sound rest node

variable {rest : P → List Element}

namespace Sound

theorem edges (h : Sound rest node) (B : Bucket) : EdgesFit rest B (node.edges B) := by
  cases h with
  | mk hedges _ _ _ => exact hedges B

theorem child (h : Sound rest node) {edge : Element × Node P} (he : edge ∈ node.edges B) :
    Sound (fun x => (rest x).tail) edge.2 := by
  cases h with
  | mk _ hchildren _ _ => exact hchildren B edge he

theorem of_child? {e : Element} {child : Node P} (h : Sound rest node)
    (hc : child? (node.edges B) e = some child) : Sound (fun x => (rest x).tail) child := by
  obtain ⟨key, hedge, -⟩ := exists_mem_of_child? hc
  exact h.child hedge

theorem descents (h : Sound rest node) (hx : x ∈ node.descents) : ∃ e l, rest x = e :: l ∧ e.bucket = none := by
  cases h with
  | mk _ _ hdescents _ => exact hdescents x hx

theorem terminal (h : Sound rest node) (hx : node.terminal = some x) : rest x = [] := by
  cases h with
  | mk _ _ _ hterminal => exact hterminal x hx

theorem empty (rest : P → List Element) : Sound rest Node.empty := by
  refine .mk (fun B => ?_) (fun B edge he => ?_) (fun x hx => by cases hx) (fun x hx => by cases hx)
  · have hes : (Node.empty : Node P).edges B = [] := by cases B <;> rfl
    rw [hes]
    exact { distinct := List.Pairwise.nil, bucket := by simp, ne_nil := by simp, leads := by simp }
  · cases B <;> cases he

/-- The edges of one bucket may be exchanged for others that fit. -/
theorem setEdges (h : Sound rest node) (hes : EdgesFit rest B es)
    (hchildren : ∀ edge ∈ es, Sound (fun x => (rest x).tail) edge.2) : Sound rest (node.setEdges B es) := by
  refine .mk (fun B' => ?_) (fun B' edge he => ?_) (fun x hx => ?_) (fun x hx => ?_)
  · by_cases hB : B' = B
    · rw [hB, edges_setEdges]; exact hes
    · rw [edges_setEdges_of_ne hB]; exact h.edges B'
  · by_cases hB : B' = B
    · rw [hB, edges_setEdges] at he
      exact hchildren edge he
    · rw [edges_setEdges_of_ne hB] at he
      exact h.child he
  · rw [descents_setEdges] at hx
    exact h.descents hx
  · rw [terminal_setEdges] at hx
    exact h.terminal hx

theorem setDescents {ds : List P} (h : Sound rest node)
    (hds : ∀ x ∈ ds, ∃ e l, rest x = e :: l ∧ e.bucket = none) : Sound rest { node with descents := ds } :=
  .mk h.edges (fun _ _ he => h.child he) hds fun _ hx => h.terminal hx

theorem setTerminal {t : Option P} (h : Sound rest node) (ht : ∀ x, t = some x → rest x = []) :
    Sound rest { node with terminal := t } :=
  .mk h.edges (fun _ _ he => h.child he) (fun _ hx => h.descents hx) ht

end Sound

theorem isEmpty_iff (h : Sound rest node) : node.isEmpty = true ↔ node.patterns = [] := by
  simp only [isEmpty, Bool.and_eq_true, List.isEmpty_iff, Option.isNone_iff_eq_none]
  constructor
  · rintro ⟨⟨⟨⟨hexact, hproperty⟩, hindex⟩, hdescents⟩, hterminal⟩
    rw [patterns_eq, hexact, hproperty, hindex, hdescents, hterminal]
    simp [patternsBelow]
  · intro hp
    -- an edge would lead to a node with patterns
    have hnot : ∀ x, x ∉ node.patterns := by
      intro x hx
      rw [hp] at hx
      cases hx
    have hedges : ∀ B, node.edges B = [] := by
      intro B
      rw [List.eq_nil_iff_forall_not_mem]
      intro edge he
      obtain ⟨x, hx⟩ := List.exists_mem_of_ne_nil _ ((h.edges B).ne_nil edge he)
      exact hnot x (mem_patterns.2 (.inl ⟨B, edge, he, hx⟩))
    refine ⟨⟨⟨⟨hedges .exact, hedges .property⟩, hedges .index⟩, ?_⟩, ?_⟩
    · rw [List.eq_nil_iff_forall_not_mem]
      intro x hx
      exact hnot x (mem_patterns.2 (.inr (.inl hx)))
    · rw [Option.eq_none_iff_forall_ne_some]
      intro x hx
      exact hnot x (mem_patterns.2 (.inr (.inr hx)))

namespace EdgesFit

variable {before after : List (Element × Node P)} {key e : Element} {old new : Node P}

/-- An edge that is not there yet may be added at the end. -/
theorem append (h : EdgesFit rest B es) (hnew : ∀ edge ∈ es, (e == edge.1) = false) (he : e.bucket = some B)
    (hne : new.patterns ≠ []) (hl : ∀ x ∈ new.patterns, ∃ e' l, rest x = e' :: l ∧ (e' == e) = true) :
    EdgesFit rest B (es ++ [(e, new)]) where
  distinct := by
    unfold DistinctKeys
    rw [List.map_append, List.pairwise_append]
    refine ⟨h.distinct, List.pairwise_singleton .., fun k hk e' he' => ?_⟩
    obtain ⟨edge, hedge, rfl⟩ := List.mem_map.1 hk
    rw [List.mem_singleton.1 he', BEq.comm]
    exact hnew edge hedge
  bucket := by
    intro edge hedge
    rcases List.mem_append.1 hedge with hedge | hedge
    · exact h.bucket edge hedge
    · rw [List.mem_singleton.1 hedge]; exact he
  ne_nil := by
    intro edge hedge
    rcases List.mem_append.1 hedge with hedge | hedge
    · exact h.ne_nil edge hedge
    · rw [List.mem_singleton.1 hedge]; exact hne
  leads := by
    intro edge hedge
    rcases List.mem_append.1 hedge with hedge | hedge
    · exact h.leads edge hedge
    · rw [List.mem_singleton.1 hedge]; exact hl

theorem mem_replace {edge : Element × Node P} (he : edge ∈ before ++ (key, new) :: after) :
    edge = (key, new) ∨ edge ∈ before ++ (key, old) :: after := by
  rcases List.mem_append.1 he with he | he
  · exact .inr (List.mem_append_left _ he)
  · rcases List.mem_cons.1 he with he | he
    · exact .inl he
    · exact .inr (List.mem_append_right _ (List.mem_cons_of_mem _ he))

/-- An edge may lead to another node. -/
theorem replace (h : EdgesFit rest B (before ++ (key, old) :: after)) (hne : new.patterns ≠ [])
    (hl : ∀ x ∈ new.patterns, ∃ e l, rest x = e :: l ∧ (e == key) = true) :
    EdgesFit rest B (before ++ (key, new) :: after) where
  distinct := by
    have hd := h.distinct
    unfold DistinctKeys at hd ⊢
    rw [List.map_append, List.map_cons] at hd ⊢
    exact hd
  bucket := by
    intro edge hedge
    rcases mem_replace hedge with rfl | hedge
    · exact h.bucket (key, old) (by simp)
    · exact h.bucket edge hedge
  ne_nil := by
    intro edge hedge
    rcases mem_replace hedge with rfl | hedge
    · exact hne
    · exact h.ne_nil edge hedge
  leads := by
    intro edge hedge
    rcases mem_replace hedge with rfl | hedge
    · exact hl
    · exact h.leads edge hedge

/-- Edges may be left out. -/
theorem sublist {es' : List (Element × Node P)} (h : EdgesFit rest B es) (hs : es'.Sublist es) :
    EdgesFit rest B es' where
  distinct := h.distinct.sublist (hs.map _)
  bucket edge he := h.bucket edge (hs.subset he)
  ne_nil edge he := h.ne_nil edge (hs.subset he)
  leads edge he := h.leads edge (hs.subset he)

end EdgesFit

namespace Sound

variable {before after : List (Element × Node P)} {key e : Element} {old new : Node P}

/-- A child of a sound node may be exchanged for another sound node whose patterns fit. -/
theorem replace (h : Sound rest node) (hsplit : node.edges B = before ++ (key, old) :: after)
    (hnew : Sound (fun x => (rest x).tail) new) (hne : new.patterns ≠ [])
    (hl : ∀ x ∈ new.patterns, ∃ e l, rest x = e :: l ∧ (e == key) = true) :
    Sound rest (node.setEdges B (before ++ (key, new) :: after)) := by
  have hfit := h.edges B
  rw [hsplit] at hfit
  refine h.setEdges (hfit.replace hne hl) fun edge he => ?_
  rcases EdgesFit.mem_replace he with rfl | he
  · exact hnew
  · rw [← hsplit] at he
    exact h.child he

/-- A child of a sound node may be dropped. -/
theorem drop (h : Sound rest node) (hsplit : node.edges B = before ++ (key, old) :: after) :
    Sound rest (node.setEdges B (before ++ after)) := by
  have hsub : (before ++ after).Sublist (node.edges B) := by
    rw [hsplit]
    exact (List.Sublist.refl before).append (List.sublist_cons_self ..)
  exact h.setEdges ((h.edges B).sublist hsub) fun edge he => h.child (hsub.subset he)

/-- A sound node may be added as a new child. -/
theorem append (h : Sound rest node) (hedge : ∀ edge ∈ node.edges B, (e == edge.1) = false)
    (he : e.bucket = some B) (hnew : Sound (fun x => (rest x).tail) new) (hne : new.patterns ≠ [])
    (hl : ∀ x ∈ new.patterns, ∃ e' l, rest x = e' :: l ∧ (e' == e) = true) :
    Sound rest (node.setEdges B (node.edges B ++ [(e, new)])) := by
  refine h.setEdges ((h.edges B).append hedge he hne hl) fun edge hmem => ?_
  rcases List.mem_append.1 hmem with hmem | hmem
  · exact h.child hmem
  · rw [List.mem_singleton.1 hmem]; exact hnew

end Sound

/-! ### Where a pattern is stored -/

/-- A pattern that has no elements left ends at the node. -/
theorem terminal_of_mem (h : Sound rest node) (hx : x ∈ node.patterns) (hr : rest x = []) :
    node.terminal = some x := by
  rcases mem_patterns.1 hx with ⟨B, edge, he, hx⟩ | hx | hx
  · obtain ⟨e, l, hl, -⟩ := (h.edges B).leads edge he x hx
    rw [hr] at hl; cases hl
  · obtain ⟨e, l, hl, -⟩ := h.descents hx
    rw [hr] at hl; cases hl
  · exact hx

/-- A pattern that goes on with a recursive descent is kept by the node itself. -/
theorem mem_descents_of_mem {e : Element} {l : List Element} (h : Sound rest node) (hx : x ∈ node.patterns)
    (hr : rest x = e :: l) (he : e.bucket = none) : x ∈ node.descents := by
  rcases mem_patterns.1 hx with ⟨B, edge, hedge, hx⟩ | hx | hx
  · obtain ⟨e', l', hl, heq⟩ := (h.edges B).leads edge hedge x hx
    rw [hr] at hl
    cases hl
    have hb := (h.edges B).bucket edge hedge
    rw [← Element.bucket_congr heq, he] at hb
    cases hb
  · exact hx
  · rw [h.terminal hx] at hr; cases hr

/-- A pattern that goes on with another element is found below the edge of that element. -/
theorem exists_child_of_mem {e e' : Element} {l : List Element} (h : Sound rest node) (hx : x ∈ node.patterns)
    (hr : rest x = e' :: l) (heq : (e == e') = true) (he : e.bucket = some B) :
    ∃ child, child? (node.edges B) e = some child ∧ x ∈ child.patterns := by
  rcases mem_patterns.1 hx with ⟨B', edge, hedge, hx⟩ | hx | hx
  · obtain ⟨e₀, l₀, hl, hkey⟩ := (h.edges B').leads edge hedge x hx
    rw [hr] at hl
    cases hl
    have hk := BEq.trans heq hkey
    have hb := (h.edges B').bucket edge hedge
    rw [← Element.bucket_congr hk, he] at hb
    cases hb
    exact ⟨edge.2, child?_eq_some_of_mem (h.edges B).distinct hedge hk, hx⟩
  · obtain ⟨e₀, l₀, hl, hb⟩ := h.descents hx
    rw [hr] at hl
    cases hl
    rw [← Element.bucket_congr heq, he] at hb
    cases hb
  · rw [h.terminal hx] at hr; cases hr

/-- Two stored patterns with equal elements and without a recursive descent end at the same node, so that they are one
pattern. -/
theorem eq_of_mem_of_beq {y : P} (h : Sound rest node) (hx : x ∈ node.patterns) (hy : y ∈ node.patterns)
    (heq : (rest x == rest y) = true) (hplain : ∀ e ∈ rest y, e.isDescent = false) : x = y := by
  generalize hl : rest y = l at heq hplain
  induction l generalizing rest node with
  | nil =>
    have ht := terminal_of_mem h hx (Element.eq_nil_of_beq_nil heq)
    rw [terminal_of_mem h hy hl] at ht
    exact (Option.some.inj ht).symm
  | cons e l ih =>
    obtain ⟨hed, hplain⟩ := List.forall_mem_cons.1 hplain
    obtain ⟨e', l', hr, hee, hll⟩ := Element.exists_cons_of_beq_cons heq
    cases he : e.bucket with
    | none =>
      rw [Element.isDescent_of_bucket_eq_none he] at hed
      cases hed
    | some B =>
      obtain ⟨child, hc, hxchild⟩ := exists_child_of_mem h hx hr (BEq.symm hee) he
      obtain ⟨child', hc', hychild⟩ := exists_child_of_mem h hy hl BEq.rfl he
      rw [hc] at hc'
      cases hc'
      exact ih (h.of_child? hc) hxchild hychild (by rw [hl]; rfl) (by rw [hr]; exact hll) hplain

end PathContainment.Node
