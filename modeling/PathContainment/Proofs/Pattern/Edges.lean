import PathContainment.Pattern.Tree
import PathContainment.Proofs.Element.Bucket

/-!
# Edges of a node

The edges of a bucket carry different elements, so that the edge of an element can be split off from the others
(`exists_split_of_child?`); what is put below it or dropped changes nothing else.
-/

namespace PathContainment.Node

variable {P : Type u} {edges : List (Element × Node P)} {e : Element} {child new : Node P}

/-- No two edges carry equal elements. -/
def DistinctKeys (edges : List (Element × Node P)) : Prop :=
  (edges.map (·.1)).Pairwise fun e e' => (e == e') = false

theorem exists_split_of_child? (h : child? edges e = some child) :
    ∃ before key after, edges = before ++ (key, child) :: after ∧ (e == key) = true ∧
      ∀ edge ∈ before, (e == edge.1) = false := by
  induction edges with
  | nil => cases h
  | cons edge edges ih =>
    obtain ⟨key, old⟩ := edge
    rw [child?, List.lookup_cons] at h
    cases hk : e == key with
    | true =>
      rw [hk] at h
      cases h
      exact ⟨[], key, edges, rfl, hk, fun edge he => by cases he⟩
    | false =>
      rw [hk] at h
      obtain ⟨before, key', after, rfl, hk', hb⟩ := ih h
      refine ⟨(key, old) :: before, key', after, rfl, hk', fun edge he => ?_⟩
      rcases List.mem_cons.1 he with rfl | he
      · exact hk
      · exact hb edge he

theorem exists_mem_of_child? (h : child? edges e = some child) : ∃ key, (key, child) ∈ edges ∧ (e == key) = true := by
  obtain ⟨before, key, after, rfl, hk, -⟩ := exists_split_of_child? h
  exact ⟨key, List.mem_append_right _ (List.mem_cons_self ..), hk⟩

theorem child?_eq_none_iff : child? edges e = none ↔ ∀ edge ∈ edges, (e == edge.1) = false := by
  rw [child?, List.lookup_eq_none_iff]
  simp only [bne, Bool.not_eq_true']

/-- An edge is found by every element that is equal to its own. -/
theorem child?_eq_some_of_mem {key : Element} (hd : DistinctKeys edges) (hm : (key, child) ∈ edges)
    (he : (e == key) = true) : child? edges e = some child := by
  induction edges with
  | nil => cases hm
  | cons edge edges ih =>
    have hd' := List.pairwise_cons.1 hd
    rw [child?, List.lookup_cons]
    rcases List.mem_cons.1 hm with heq | hm
    · rw [← heq, he]
    · have hk : (e == edge.1) = false := by
        cases hk : e == edge.1 with
        | false => rfl
        | true =>
          have := hd'.1 key (List.mem_map_of_mem hm)
          rw [BEq.trans (BEq.symm hk) he] at this
          cases this
      rw [hk]
      exact ih hd'.2 hm

theorem child?_split {before after : List (Element × Node P)} {key : Element} (hk : (e == key) = true)
    (hb : ∀ edge ∈ before, (e == edge.1) = false) :
    child? (before ++ (key, child) :: after) e = some child := by
  induction before with
  | nil => rw [List.nil_append, child?, List.lookup_cons, hk]
  | cons edge before ih =>
    rw [List.cons_append, child?, List.lookup_cons, hb edge (List.mem_cons_self ..)]
    exact ih fun edge he => hb edge (List.mem_cons_of_mem _ he)

theorem putChild_of_child?_eq_none (h : ∀ edge ∈ edges, (e == edge.1) = false) :
    putChild edges e new = edges ++ [(e, new)] := by
  induction edges with
  | nil => rfl
  | cons edge edges ih =>
    rw [putChild, h edge (List.mem_cons_self ..), ih fun edge he => h edge (List.mem_cons_of_mem _ he)]
    rfl

theorem putChild_split {before after : List (Element × Node P)} {key : Element} (hk : (e == key) = true)
    (hb : ∀ edge ∈ before, (e == edge.1) = false) :
    putChild (before ++ (key, child) :: after) e new = before ++ (key, new) :: after := by
  induction before with
  | nil => rw [List.nil_append, putChild, if_pos hk]; rfl
  | cons edge before ih =>
    rw [List.cons_append, putChild, hb edge (List.mem_cons_self ..),
      ih fun edge he => hb edge (List.mem_cons_of_mem _ he)]
    rfl

theorem dropChild_split {before after : List (Element × Node P)} {key : Element} (hk : (e == key) = true)
    (hb : ∀ edge ∈ before, (e == edge.1) = false) :
    dropChild (before ++ (key, child) :: after) e = before ++ after := by
  rw [dropChild, List.eraseP_append_right _ fun edge he => by rw [hb edge he]; simp, List.eraseP_cons, hk]
  rfl

end PathContainment.Node
