import PathContainment.Proofs.Pattern.Invariant

/-!
# Different patterns with equal elements

Patterns of some types are told apart by more than their elements, as those of `Tagged` are by a tag. Two different
patterns with equal elements would end at the same node of the tree, which has room for one pattern: the second one is
refused. But a recursive descent among the elements keeps both patterns from ending at a node. They are listed at the
node before it, and there only an equal pattern hinders the insertion; so both are stored (`insert_twin_of_descent`).
The refusal is described by `insert_eq_false_iff_of_run`: what is stored already has equal elements, and it is equal to
the new pattern, or the elements are without a recursive descent.
-/

namespace PathContainment.PatternSet

variable {P : Type u} [Pattern P] [LawfulPattern P] {set : PatternSet P} {x : P}

namespace Consistent

theorem insert_eq_false_iff (h : set.Consistent) :
    (set.insert x).2 = false ↔ ∃ y ∈ set.toList, (steps y == steps x) = true ∧
      ((y == x) = true ∨ ∀ e ∈ steps x, e.isDescent = false) := by
  unfold PatternSet.insert
  split
  · rename_i hmem
    obtain ⟨y, hy, heq⟩ := mem_iff.1 hmem
    exact iff_of_true rfl ⟨y, hy, LawfulPattern.elements_beq heq, .inl heq⟩
  · rename_i hmem
    have hrest : ∀ y, (y == x) = true → (steps y == steps x) = true := fun y hy => LawfulPattern.elements_beq hy
    constructor
    · intro hins
      obtain ⟨y, hy, heq, hor⟩ := Node.exists_beq_of_insert_eq_false h.sound x hrest hins
      exact ⟨y, h.perm.subset hy, heq, hor⟩
    · rintro ⟨y, hy, heq, hor⟩
      rcases hor with hyx | hplain
      · exact absurd (mem_iff.2 ⟨y, hy, hyx⟩) hmem
      · exact Node.insert_eq_false_of_beq h.sound x (h.perm.symm.subset hy) heq hplain

/-- Stored patterns with equal elements have a recursive descent among them. -/
theorem pairwise_descent (h : set.Consistent) :
    set.toList.Pairwise fun x y => (steps x == steps y) = true → ∃ e ∈ steps y, e.isDescent = true := by
  refine h.distinct.imp_of_mem fun {x y} hx hy hxy heq => ?_
  by_contra hno
  have hplain : ∀ e ∈ steps y, e.isDescent = false := by
    intro e he
    rw [← Bool.not_eq_true]
    exact fun hd => hno ⟨e, he, hd⟩
  have hsame := Node.eq_of_mem_of_beq h.sound (h.perm.symm.subset hx) (h.perm.symm.subset hy) heq hplain
  rw [hsame, BEq.rfl] at hxy
  cases hxy

end Consistent

/-- After every run of commands a pattern is refused exactly when one with equal elements is stored that is equal to it
or, if the elements are without a recursive descent, any one; the refusal changes nothing. So two stored patterns have
equal elements only if there is a recursive descent among them. -/
theorem insert_eq_false_iff_of_run (commands : List (Command P)) (x : P) :
    let set := run commands
    ((set.insert x).2 = false ↔ ∃ y ∈ set.toList, (steps y == steps x) = true ∧
      ((y == x) = true ∨ ∀ e ∈ steps x, e.isDescent = false)) ∧
    ((set.insert x).2 = false → (set.insert x).1 = set) ∧
    set.toList.Pairwise fun y z => (steps y == steps z) = true → ∃ e ∈ steps z, e.isDescent = true := by
  intro set
  have h : set.Consistent := consistent_run commands
  exact ⟨h.insert_eq_false_iff, h.insert_eq_self, h.pairwise_descent⟩

/-! ### Paths with a tag -/

/-- A path with a tag, equal only to the same path with the same tag. -/
structure Tagged where
  tag : Nat
  path : AnyPath

instance : Pattern Tagged where
  beq x y := x.tag == y.tag && x.path == y.path
  path := Tagged.path

namespace Tagged

theorem beq_iff {x y : Tagged} : (x == y) = true ↔ x.tag = y.tag ∧ (x.path == y.path) = true := by
  show (x.tag == y.tag && x.path == y.path) = true ↔ _
  rw [Bool.and_eq_true, beq_iff_eq]

instance : LawfulPattern Tagged where
  rfl := beq_iff.2 ⟨rfl, BEq.rfl⟩
  symm h := beq_iff.2 ((beq_iff.1 h).imp Eq.symm BEq.symm)
  trans h h' := beq_iff.2 ⟨(beq_iff.1 h).1.trans (beq_iff.1 h').1, BEq.trans (beq_iff.1 h).2 (beq_iff.1 h').2⟩
  elements_beq h := (beq_iff.1 h).2

end Tagged

/-- With the path `$.a` stored under the tag `1`, it is refused under the tag `2`, which changes nothing. -/
theorem insert_eq_false_iff_of_run_of_twin :
    let a : AnyPath := { elements := [.root, .property "a"], valid := by decide, admitted := rfl }
    let set := run [.insert (Tagged.mk 1 a)]
    (set.insert (Tagged.mk 2 a)).2 = false ∧ (set.insert (Tagged.mk 2 a)).1 = set := by
  intro a set
  obtain ⟨hiff, hrefused, -⟩ := insert_eq_false_iff_of_run [.insert (Tagged.mk 1 a)] (Tagged.mk 2 a)
  have hlist : set.toList = [Tagged.mk 1 a] := rfl
  have hplain : ∀ e ∈ a.elements, e.isDescent = false := by decide
  have hins : (set.insert (Tagged.mk 2 a)).2 = false := by
    refine hiff.2 ⟨Tagged.mk 1 a, ?_, BEq.rfl, .inr hplain⟩
    rw [hlist]
    exact List.mem_singleton.2 rfl
  exact ⟨hins, hrefused hins⟩

/-- The path `$..a` is stored under the tag `2` beside the same path under the tag `1`. -/
theorem insert_twin_of_descent :
    let a : AnyPath := { elements := [.root, .descent (.property "a")], valid := by decide, admitted := rfl }
    let set := run [.insert (Tagged.mk 1 a)]
    (∃ y ∈ set.toList, (steps y == steps (Tagged.mk 2 a)) = true) ∧ (set.insert (Tagged.mk 2 a)).2 = true ∧
      (set.insert (Tagged.mk 2 a)).1.toList = [Tagged.mk 1 a, Tagged.mk 2 a] := by
  intro a set
  have hlist : set.toList = [Tagged.mk 1 a] := rfl
  refine ⟨⟨Tagged.mk 1 a, ?_, BEq.rfl⟩, rfl, rfl⟩
  rw [hlist]
  exact List.mem_singleton.2 rfl

end PathContainment.PatternSet
