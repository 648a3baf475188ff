import Mathlib.Data.List.Pairwise
import PathContainment.Pattern.Set
import PathContainment.Proofs.Pattern.Query
import PathContainment.Proofs.Pattern.Update

/-!
# Sets of patterns

However a set of patterns came about, its list and its tree hold the same patterns, each of them once
(`PatternSet.Consistent`). Every command keeps this, and so does every run of commands (`consistent_run`). Since a
sound tree answers for its patterns, the set answers as if its patterns were asked one by one (`answers_of_run`).

The patterns may be of any type whose equality is an equivalence and implies that the paths have equal elements.
-/

namespace PathContainment

/-- A type of patterns that are equal only if their elements are. -/
class LawfulPattern (P : Type u) [Pattern P] : Prop extends EquivBEq P where
  elements_beq {x y : P} : (x == y) = true → ((Pattern.path x).elements == (Pattern.path y).elements) = true

instance {scope : Scope} : EquivBEq (Path scope) where
  rfl {p} := (BEq.rfl : (p.elements == p.elements) = true)
  symm {p q} h := (BEq.symm h : (q.elements == p.elements) = true)
  trans {p _ r} h h' := (BEq.trans h h' : (p.elements == r.elements) = true)

instance {scope : Scope} : LawfulPattern (Path scope) where
  elements_beq h := h

namespace PatternSet

variable {P : Type u} [Pattern P]

/-! ### Consistent sets -/

/-- The list and the tree of the set hold the same patterns, which are different from one another. -/
structure Consistent (set : PatternSet P) : Prop where
  sound : Node.Sound steps set.tree
  perm : set.tree.patterns.Perm set.toList
  distinct : set.toList.Pairwise fun x y => (x == y) = false

variable {set : PatternSet P}

theorem consistent_empty : (empty : PatternSet P).Consistent where
  sound := .empty _
  perm := by
    rw [empty, Node.patterns_empty]
  distinct := .nil

theorem Consistent.insert (h : set.Consistent) (pattern : P) : (set.insert pattern).1.Consistent := by
  unfold PatternSet.insert
  split
  · exact h
  · rename_i hmem
    rcases Node.insert_spec h.sound pattern with ⟨tree, hins, hsound, hperm⟩ | hins
    · rw [hins]
      refine { sound := hsound, perm := ?_, distinct := ?_ }
      · exact hperm.trans ((h.perm.cons pattern).trans (List.perm_append_singleton ..).symm)
      · refine List.pairwise_append.2 ⟨h.distinct, List.pairwise_singleton .., fun x hx y hy => ?_⟩
        rw [List.mem_singleton.1 hy]
        cases hxp : x == pattern with
        | false => rfl
        | true => exact absurd (List.any_eq_true.2 ⟨x, hx, hxp⟩) hmem
    · rw [hins]
      exact h

theorem Consistent.extend (h : set.Consistent) (patterns : List P) : (set.extend patterns).Consistent := by
  unfold PatternSet.extend
  induction patterns generalizing set with
  | nil => exact h
  | cons pattern patterns ih => exact ih (h.insert pattern)

section
variable [LawfulPattern P]

private theorem eq_of_beq_of_mem {l : List P} (hd : l.Pairwise fun x y => (x == y) = false) {x y : P} (hx : x ∈ l)
    (hy : y ∈ l) (h : (x == y) = true) : x = y := by
  by_contra hne
  have hsymm : Std.Symm fun x y : P => (x == y) = false := ⟨fun x y hxy => by rwa [BEq.comm]⟩
  have hf := hd.forall hx hy hne
  rw [h] at hf
  cases hf

theorem Consistent.remove (h : set.Consistent) (pattern : P) : (set.remove pattern).1.Consistent := by
  unfold PatternSet.remove
  split
  · rename_i hmem
    obtain ⟨y, hy, heq⟩ := List.any_eq_true.1 hmem
    obtain ⟨tree, z, hrem, hsound, hz, hperm⟩ := Node.remove_spec h.sound (h.perm.symm.subset hy) heq
      (LawfulPattern.elements_beq heq)
    obtain ⟨w, l₁, l₂, -, hw, hlist, herase⟩ := List.exists_of_eraseP (p := (· == pattern)) hy heq
    have hperm' : (z :: tree.patterns).Perm (w :: (l₁ ++ l₂)) := by
      refine hperm.symm.trans (h.perm.trans ?_)
      rw [hlist]
      exact List.perm_middle
    -- the pattern that leaves the tree is the one that leaves the list
    have hzw : z = w := by
      refine eq_of_beq_of_mem h.distinct ?_ (by rw [hlist]; simp) (BEq.trans hz (BEq.symm hw))
      exact (hperm.symm.trans h.perm).subset (List.mem_cons_self ..)
    rw [hrem, herase]
    refine { sound := hsound, perm := ?_, distinct := ?_ }
    · rw [hzw] at hperm'
      exact hperm'.cons_inv
    · have hd := h.distinct
      rw [hlist] at hd
      exact hd.sublist ((List.Sublist.refl l₁).append (List.sublist_cons_self ..))
  · exact h

end

/-! ### Runs -/

/-- What can be done to a set. -/
inductive Command (P : Type u) where
  | insert (pattern : P)
  | remove (pattern : P)
  | clear
  | extend (patterns : List P)

def apply (set : PatternSet P) : Command P → PatternSet P
  | .insert pattern => (set.insert pattern).1
  | .remove pattern => (set.remove pattern).1
  | .clear => set.clear
  | .extend patterns => set.extend patterns

/-- The set after commands that begin with the empty set. -/
def run (commands : List (Command P)) : PatternSet P := commands.foldl apply empty

section
variable [LawfulPattern P]

theorem Consistent.apply (h : set.Consistent) (command : Command P) : (set.apply command).Consistent := by
  cases command with
  | insert pattern => exact h.insert pattern
  | remove pattern => exact h.remove pattern
  | clear => exact consistent_empty
  | extend patterns => exact h.extend patterns

/-- Every run of commands leads to a set whose list and tree agree. -/
theorem consistent_run (commands : List (Command P)) : (run commands).Consistent := by
  have hfold : ∀ (commands : List (Command P)) (set : PatternSet P), set.Consistent →
      (commands.foldl PatternSet.apply set).Consistent := by
    intro commands
    induction commands with
    | nil => exact fun _ h => h
    | cons command commands ih => exact fun set h => ih _ (h.apply command)
  exact hfold commands empty consistent_empty

end

/-! ### Answers -/

variable (q : AnyPath)

theorem contains_eq_anyOf (h : set.Consistent) :
    set.contains q = Verdict.anyOf (fun x => (Pattern.path x).contains q) set.toList := by
  rw [← Verdict.anyOf_perm h.perm, ← Node.and_verdict_eq h.sound q.elements .holds fun x _ => rfl]
  rfl

theorem containing_perm (h : set.Consistent) :
    (set.containing q).Perm (set.toList.filter fun x => (Pattern.path x).contains q = .holds) := by
  rw [containing, Node.collect_eq h.sound q.elements fun x _ => rfl]
  exact h.perm.filter _

/-- After every run of commands the set answers as its patterns do one by one: its verdict is the greatest one of
theirs, and it lists the patterns that contain the path, each of them once. -/
theorem answers_of_run [LawfulPattern P] (commands : List (Command P)) :
    ((run commands).contains q = .holds ↔ ∃ x ∈ (run commands).toList, (Pattern.path x).contains q = .holds) ∧
    ((run commands).contains q = .unknown ↔
      (∀ x ∈ (run commands).toList, (Pattern.path x).contains q ≠ .holds) ∧
        ∃ x ∈ (run commands).toList, (Pattern.path x).contains q = .unknown) ∧
    ((run commands).contains q = .fails ↔ ∀ x ∈ (run commands).toList, (Pattern.path x).contains q = .fails) ∧
    ((run commands).containing q).Perm
      ((run commands).toList.filter fun x => (Pattern.path x).contains q = .holds) ∧
    ((run commands).containing q).Pairwise fun x y => (x == y) = false := by
  have h := consistent_run commands
  have hperm := containing_perm q h
  rw [contains_eq_anyOf q h]
  refine ⟨Verdict.anyOf_eq_holds_iff, Verdict.anyOf_eq_unknown_iff, Verdict.anyOf_eq_fails_iff, hperm, ?_⟩
  refine (hperm.pairwise_iff fun {x y} hxy => ?_).2 (h.distinct.sublist List.filter_sublist)
  rw [BEq.comm]
  exact hxy

/-- With the patterns `$..b` and `$.a[(@.length-1)]` left after a run, the path `$.a.b` is contained in the first one,
and whether `$.a[3]` is contained in the second one cannot be told. -/
theorem answers_of_run_after_removal :
    let a : AnyPath := { elements := [.root, .property "a", .anyProperty], valid := by decide, admitted := rfl }
    let b : AnyPath := { elements := [.root, .descent (.property "b")], valid := by decide, admitted := rfl }
    let c : AnyPath :=
      { elements := [.root, .property "a", .expression "@.length-1"], valid := by decide, admitted := rfl }
    let q : AnyPath := { elements := [.root, .property "a", .property "b"], valid := by decide, admitted := rfl }
    let q' : AnyPath := { elements := [.root, .property "a", .index 3], valid := by decide, admitted := rfl }
    let set := run [.extend [a, b, a], .remove a, .insert c]
    set.toList = [b, c] ∧ set.contains q = .holds ∧ set.contains q' = .unknown := by
  intro a b c q q' set
  have hlist : set.toList = [b, c] := by decide +kernel
  refine ⟨hlist, (answers_of_run q _).1.2 ?_, (answers_of_run q' _).2.1.2 ?_⟩
  · show ∃ x ∈ set.toList, _
    rw [hlist]
    exact ⟨b, by simp, by decide +kernel⟩
  · show (∀ x ∈ set.toList, _) ∧ ∃ x ∈ set.toList, _
    rw [hlist]
    refine ⟨?_, c, by simp, by decide +kernel⟩
    intro x hx
    rcases List.mem_pair.1 hx with rfl | rfl <;> decide +kernel

end PatternSet

end PathContainment
