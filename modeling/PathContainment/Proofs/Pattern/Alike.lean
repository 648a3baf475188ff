import Mathlib.Data.List.Forall2
import PathContainment.Proofs.Element.Hash
import PathContainment.Proofs.Pattern.Set
import PathContainment.Proofs.Sequence.Equality

/-!
# Equal patterns in sets

Whether a set of patterns was built from one or from another of equal patterns cannot be seen by its answers. Two trees
are alike when they differ only in which one of equal elements stands at an edge and which one of equal patterns is
stored (`Node.Alike`). Storing and removing equal patterns keeps trees alike, with the same success
(`Node.Alike.insert`, `Node.Alike.remove`), because every edge is found by each of the elements that are equal to its
own. So runs of equal commands lead to sets that are alike (`PatternSet.alike_run`), and these give equal answers to
questions for equal candidates (`PatternSet.Alike.interchangeable`).

Equality does not tell elements apart, then, by anything that is done with them (`equality_is_congruence`).
-/

namespace PathContainment

/-! ### Lists of related entries -/

section
variable {α β : Type u} {R : α → β → Prop} {l : List α} {l' : List β} {p : α → Bool} {p' : β → Bool}

private theorem any_congr_of_forall₂ (h : List.Forall₂ R l l') (hp : ∀ a b, R a b → p a = p' b) :
    l.any p = l'.any p' := by
  induction h with
  | nil => rfl
  | @cons a b l l' hab _ ih => rw [List.any_cons, List.any_cons, hp a b hab, ih]

private theorem forall₂_eraseP (h : List.Forall₂ R l l') (hp : ∀ a b, R a b → p a = p' b) :
    List.Forall₂ R (l.eraseP p) (l'.eraseP p') := by
  induction h with
  | nil => exact .nil
  | @cons a b l l' hab hl ih =>
    rw [List.eraseP_cons, List.eraseP_cons, hp a b hab]
    cases p' b with
    | true => exact hl
    | false => exact .cons hab ih

/-- The lists have equal entries, one by one. -/
abbrev PairwiseEqual {α : Type u} [BEq α] (l l' : List α) : Prop := List.Forall₂ (fun x y => (x == y) = true) l l'

theorem pairwiseEqual_iff {α : Type u} [BEq α] {l l' : List α} : PairwiseEqual l l' ↔ (l == l') = true := by
  induction l generalizing l' with
  | nil => cases l' <;> simp
  | cons x l ih =>
    cases l' with
    | nil => simp
    | cons y l' =>
      rw [List.cons_beq_cons, Bool.and_eq_true, ← ih]
      exact List.forall₂_cons

private theorem beq_congr {α : Type u} [BEq α] [EquivBEq α] {a a' b b' : α} (ha : (a == a') = true)
    (hb : (b == b') = true) : (a == b) = (a' == b') :=
  (BEq.congr_left ha).trans (BEq.congr_right hb)

private theorem cases_of_beq {α : Type u} [BEq α] {a b : Option α} (h : (a == b) = true) :
    a = none ∧ b = none ∨ ∃ x y, a = some x ∧ b = some y ∧ (x == y) = true := by
  cases a with
  | none =>
    cases b with
    | none => exact .inl ⟨rfl, rfl⟩
    | some y => cases h
  | some x =>
    cases b with
    | none => cases h
    | some y => exact .inr ⟨x, y, rfl, rfl, h⟩

private theorem pairwiseEqual_toList {α : Type u} [BEq α] {a b : Option α} (h : (a == b) = true) :
    PairwiseEqual a.toList b.toList := by
  obtain ⟨rfl, rfl⟩ | ⟨x, y, rfl, rfl, hxy⟩ := cases_of_beq h
  · exact .nil
  · exact .cons hxy .nil

private theorem any_congr_of_beq {α : Type u} [BEq α] {a b : Option α} {p p' : α → Bool} (h : (a == b) = true)
    (hp : ∀ x y, (x == y) = true → p x = p' y) : a.any p = b.any p' := by
  obtain ⟨rfl, rfl⟩ | ⟨x, y, rfl, rfl, hxy⟩ := cases_of_beq h
  · rfl
  · exact hp x y hxy

end

namespace Node

variable {P : Type u} [Pattern P] {node node' child child' : Node P} {es es' : List (Element × Node P)}
  {e e' : Element} {B : Bucket} {x y : P}

/-! ### Trees that are alike -/

/-- The nodes have equal elements at their edges, in the same order, and the nodes below these edges are alike. The
patterns they store themselves are equal. -/
inductive Alike : Node P → Node P → Prop
  | mk {node node' : Node P} :
      (∀ B, List.Forall₂ (fun edge edge' => (edge.1 == edge'.1) = true) (node.edges B) (node'.edges B)) →
      (∀ B, ∀ pair ∈ (node.edges B).zip (node'.edges B), Alike pair.1.2 pair.2.2) →
      PairwiseEqual node.descents node'.descents →
      (node.terminal == node'.terminal) = true → Alike node node'

/-- Edges with equal elements that lead to nodes that are alike. -/
def EdgeAlike (edge edge' : Element × Node P) : Prop := (edge.1 == edge'.1) = true ∧ edge.2.Alike edge'.2

namespace Alike

theorem of_edges (hedges : ∀ B, List.Forall₂ EdgeAlike (node.edges B) (node'.edges B))
    (hdescents : PairwiseEqual node.descents node'.descents)
    (hterminal : (node.terminal == node'.terminal) = true) : node.Alike node' :=
  .mk (fun B => (hedges B).imp fun _ _ h => h.1)
    (fun B pair hpair => (List.forall₂_zip (hedges B) (a := pair.1) (b := pair.2) hpair).2) hdescents hterminal

theorem edges (h : node.Alike node') (B : Bucket) : List.Forall₂ EdgeAlike (node.edges B) (node'.edges B) := by
  cases h with
  | mk hkeys hchildren _ _ =>
    rw [List.forall₂_iff_zip]
    exact ⟨(hkeys B).length_eq, fun hpair => ⟨List.forall₂_zip (hkeys B) hpair, hchildren B _ hpair⟩⟩

theorem descents (h : node.Alike node') : PairwiseEqual node.descents node'.descents := by
  cases h with
  | mk _ _ hdescents _ => exact hdescents

theorem terminal (h : node.Alike node') : (node.terminal == node'.terminal) = true := by
  cases h with
  | mk _ _ _ hterminal => exact hterminal

theorem empty : (Node.empty : Node P).Alike Node.empty := by
  refine of_edges (fun B => ?_) .nil rfl
  cases B <;> exact .nil

theorem setEdges (h : node.Alike node') (hes : List.Forall₂ EdgeAlike es es') :
    (node.setEdges B es).Alike (node'.setEdges B es') := by
  refine of_edges (fun B' => ?_) ?_ ?_
  · by_cases hB : B' = B
    · rw [hB, edges_setEdges, edges_setEdges]
      exact hes
    · rw [edges_setEdges_of_ne hB, edges_setEdges_of_ne hB]
      exact h.edges B'
  · rw [descents_setEdges, descents_setEdges]
    exact h.descents
  · rw [terminal_setEdges, terminal_setEdges]
    exact h.terminal

theorem isSome_terminal (h : node.Alike node') : node.terminal.isSome = node'.terminal.isSome := by
  obtain ⟨hn, hn'⟩ | ⟨x, y, hx, hy, -⟩ := cases_of_beq h.terminal
  · rw [hn, hn']
  · rw [hx, hy]
    rfl

theorem isEmpty_eq (h : node.Alike node') : node.isEmpty = node'.isEmpty := by
  have hnil : ∀ {α : Type u} {R : α → α → Prop} {l l' : List α}, List.Forall₂ R l l' → l.isEmpty = l'.isEmpty :=
    fun h => by cases h <;> rfl
  have hexact : node.exact.isEmpty = node'.exact.isEmpty := hnil (h.edges .exact)
  have hproperty : node.property.isEmpty = node'.property.isEmpty := hnil (h.edges .property)
  have hindex : node.index.isEmpty = node'.index.isEmpty := hnil (h.edges .index)
  have hterminal : node.terminal.isNone = node'.terminal.isNone := by
    rw [← Option.not_isSome, ← Option.not_isSome, h.isSome_terminal]
  rw [Node.isEmpty, Node.isEmpty, hexact, hproperty, hindex, hnil h.descents, hterminal]

/-- Nodes that are alike store equal patterns, in the same order. -/
theorem patterns (h : node.Alike node') : PairwiseEqual node.patterns node'.patterns := by
  induction h with
  | @mk node node' hkeys hchildren hdescents hterminal ih =>
    have hbelow : ∀ B, PairwiseEqual (patternsBelow (node.edges B)) (patternsBelow (node'.edges B)) := by
      intro B
      have hedges : List.Forall₂ (fun edge edge' => PairwiseEqual edge.2.patterns edge'.2.patterns)
          (node.edges B) (node'.edges B) :=
        List.forall₂_iff_zip.2 ⟨(hkeys B).length_eq, fun hpair => ih B _ hpair⟩
      rw [patternsBelow_eq, patternsBelow_eq]
      exact List.rel_flatMap hedges fun _ _ h => h
    rw [patterns_eq, patterns_eq]
    refine List.rel_append (List.rel_append (List.rel_append (List.rel_append ?_ ?_) ?_) hdescents) ?_
    · exact hbelow .exact
    · exact hbelow .property
    · exact hbelow .index
    · exact pairwiseEqual_toList hterminal

end Alike

/-! ### Finding edges by equal elements -/

section
variable (h : List.Forall₂ EdgeAlike es es') (he : (e == e') = true)
include h he

theorem child?_alike : child? es e = none ∧ child? es' e' = none ∨
    ∃ child child', child? es e = some child ∧ child? es' e' = some child' ∧ child.Alike child' := by
  induction h with
  | nil => exact .inl ⟨rfl, rfl⟩
  | @cons edge edge' es es' hedge _ ih =>
    rw [child?, child?, List.lookup_cons, List.lookup_cons, beq_congr he hedge.1]
    cases e' == edge'.1 with
    | true => exact .inr ⟨_, _, rfl, rfl, hedge.2⟩
    | false => exact ih

theorem putChild_alike (hchild : child.Alike child') :
    List.Forall₂ EdgeAlike (putChild es e child) (putChild es' e' child') := by
  induction h with
  | nil => exact .cons ⟨he, hchild⟩ .nil
  | @cons edge edge' es es' hedge hes ih =>
    rw [putChild, putChild, beq_congr he hedge.1]
    cases e' == edge'.1 with
    | true => exact .cons ⟨hedge.1, hchild⟩ hes
    | false => exact .cons hedge ih

theorem dropChild_alike : List.Forall₂ EdgeAlike (dropChild es e) (dropChild es' e') :=
  forall₂_eraseP h fun _ _ hedge => beq_congr he hedge.1

end

namespace Alike

variable [LawfulPattern P] {l l' : List Element}

/-- Equal patterns are stored or refused alike. -/
theorem insert (h : node.Alike node') (hxy : (x == y) = true) (hl : (l == l') = true) :
    (Node.insert x l node).2 = (Node.insert y l' node').2 ∧
      (Node.insert x l node).1.Alike (Node.insert y l' node').1 := by
  induction l' generalizing l node node' with
  | nil =>
    rw [Element.eq_nil_of_beq_nil hl, Node.insert, Node.insert, h.isSome_terminal]
    cases node'.terminal.isSome with
    | true => exact ⟨rfl, h⟩
    | false => exact ⟨rfl, of_edges h.edges h.descents hxy⟩
  | cons e' l' ih =>
    obtain ⟨e, l, rfl, he, hl⟩ := Element.exists_cons_of_beq_cons hl
    rw [Node.insert, Node.insert, Element.bucket_congr he]
    cases e'.bucket with
    | none =>
      have hany : node.descents.any (· == x) = node'.descents.any (· == y) :=
        any_congr_of_forall₂ h.descents fun _ _ hd => beq_congr hd hxy
      dsimp only
      rw [hany]
      cases node'.descents.any (· == y) with
      | true => exact ⟨rfl, h⟩
      | false => exact ⟨rfl, of_edges h.edges (List.rel_append h.descents (.cons hxy .nil)) h.terminal⟩
    | some B =>
      have hchild : ((child? (node.edges B) e).getD Node.empty).Alike
          ((child? (node'.edges B) e').getD Node.empty) := by
        rcases child?_alike (h.edges B) he with ⟨hc, hc'⟩ | ⟨child, child', hc, hc', hcc⟩
        · rw [hc, hc']
          exact empty
        · rw [hc, hc']
          exact hcc
      obtain ⟨hstored, halike⟩ := ih hchild hl
      exact ⟨hstored, h.setEdges (putChild_alike (h.edges B) he halike)⟩

/-- Equal patterns are taken out alike. -/
theorem remove (h : node.Alike node') (hxy : (x == y) = true) (hl : (l == l') = true) :
    (Node.remove x l node).2 = (Node.remove y l' node').2 ∧
      (Node.remove x l node).1.Alike (Node.remove y l' node').1 := by
  have hp : ∀ z z' : P, (z == z') = true → (z == x) = (z' == y) :=
    fun _ _ hz => beq_congr hz hxy
  induction l' generalizing l node node' with
  | nil =>
    have hany : node.terminal.any (· == x) = node'.terminal.any (· == y) := any_congr_of_beq h.terminal hp
    rw [Element.eq_nil_of_beq_nil hl, Node.remove, Node.remove, hany]
    cases node'.terminal.any (· == y) with
    | true => exact ⟨rfl, of_edges h.edges h.descents rfl⟩
    | false => exact ⟨rfl, h⟩
  | cons e' l' ih =>
    obtain ⟨e, l, rfl, he, hl⟩ := Element.exists_cons_of_beq_cons hl
    rw [Node.remove, Node.remove, Element.bucket_congr he]
    cases e'.bucket with
    | none =>
      have hany : node.descents.any (· == x) = node'.descents.any (· == y) := any_congr_of_forall₂ h.descents hp
      dsimp only
      rw [hany]
      cases node'.descents.any (· == y) with
      | true => exact ⟨rfl, of_edges h.edges (forall₂_eraseP h.descents hp) h.terminal⟩
      | false => exact ⟨rfl, h⟩
    | some B =>
      rcases child?_alike (h.edges B) he with ⟨hc, hc'⟩ | ⟨old, old', hc, hc', hold⟩
      · dsimp only
        rw [hc, hc']
        exact ⟨rfl, h⟩
      · obtain ⟨hremoved, halike⟩ := ih hold hl
        dsimp only
        rw [hc, hc']
        dsimp only
        rw [hremoved, halike.isEmpty_eq]
        cases (Node.remove y l' old').2 with
        | false => exact ⟨rfl, h⟩
        | true =>
          cases (Node.remove y l' old').1.isEmpty with
          | true => exact ⟨rfl, h.setEdges (dropChild_alike (h.edges B) he)⟩
          | false => exact ⟨rfl, h.setEdges (putChild_alike (h.edges B) he halike)⟩

end Alike

end Node

namespace PatternSet

variable {P : Type u} [Pattern P] {set set' : PatternSet P} {x y : P}

/-! ### Sets that are alike -/

/-- The sets store equal patterns, in the same order, and their trees are alike. -/
structure Alike (set set' : PatternSet P) : Prop where
  toList : PairwiseEqual set.toList set'.toList
  tree : set.tree.Alike set'.tree

namespace Alike

theorem empty : (empty : PatternSet P).Alike PatternSet.empty where
  toList := .nil
  tree := .empty

variable [LawfulPattern P]

theorem mem_eq (h : set.Alike set') (hxy : (x == y) = true) : set.mem x = set'.mem y :=
  any_congr_of_forall₂ h.toList fun _ _ hz => beq_congr hz hxy

theorem insert (h : set.Alike set') (hxy : (x == y) = true) :
    (set.insert x).2 = (set'.insert y).2 ∧ (set.insert x).1.Alike (set'.insert y).1 := by
  have hsteps : (steps x == steps y) = true := LawfulPattern.elements_beq hxy
  obtain ⟨hstored, htree⟩ := h.tree.insert hxy hsteps
  unfold PatternSet.insert
  rw [h.mem_eq hxy]
  cases set'.mem y with
  | true => exact ⟨rfl, h⟩
  | false =>
    refine ⟨hstored, ?_, htree⟩
    show PairwiseEqual (if _ then _ else _) (if _ then _ else _)
    rw [hstored]
    split
    · exact List.rel_append h.toList (.cons hxy .nil)
    · exact h.toList

theorem remove (h : set.Alike set') (hxy : (x == y) = true) :
    (set.remove x).2 = (set'.remove y).2 ∧ (set.remove x).1.Alike (set'.remove y).1 := by
  unfold PatternSet.remove
  rw [h.mem_eq hxy]
  cases set'.mem y with
  | false => exact ⟨rfl, h⟩
  | true =>
    refine ⟨rfl, ?_, (h.tree.remove hxy (LawfulPattern.elements_beq hxy)).2⟩
    exact forall₂_eraseP h.toList fun _ _ hz => beq_congr hz hxy

theorem extend {l l' : List P} (h : set.Alike set') (hl : PairwiseEqual l l') :
    (set.extend l).Alike (set'.extend l') :=
  List.rel_foldl (fun _ _ h _ _ hxy => (h.insert hxy).2) h hl

end Alike

/-- Commands are equal when they do the same with equal patterns. -/
instance : BEq (Command P) where
  beq
    | .insert x, .insert y => x == y
    | .remove x, .remove y => x == y
    | .clear, .clear => true
    | .extend l, .extend l' => l == l'
    | _, _ => false

section
variable [LawfulPattern P]

theorem Alike.apply {command command' : Command P} (h : set.Alike set') (hc : (command == command') = true) :
    (set.apply command).Alike (set'.apply command') := by
  cases command with
  | insert x =>
    cases command' with
    | insert y => exact (h.insert hc).2
    | _ => cases hc
  | remove x =>
    cases command' with
    | remove y => exact (h.remove hc).2
    | _ => cases hc
  | clear =>
    cases command' with
    | clear => exact Alike.empty
    | _ => cases hc
  | extend l =>
    cases command' with
    | extend l' => exact h.extend (pairwiseEqual_iff.2 hc)
    | _ => cases hc

/-- Runs of equal commands lead to sets that are alike. -/
theorem alike_run {commands commands' : List (Command P)} (h : (commands == commands') = true) :
    (run commands).Alike (run commands') :=
  List.rel_foldl (fun _ _ h _ _ hc => h.apply hc) Alike.empty (pairwiseEqual_iff.2 h)

end

/-! ### Equal candidates -/

variable {q q' : AnyPath}

theorem Consistent.containing_congr (h : set.Consistent) (hq : (q == q') = true) :
    set.containing q = set.containing q' := by
  rw [containing, containing, Node.collect_eq h.sound q.elements fun x _ => rfl,
    Node.collect_eq h.sound q'.elements fun x _ => rfl]
  simp only [Path.contains_congr_right hq]

variable [LawfulPattern P]

private theorem contains_congr (hxy : (x == y) = true) (hq : (q == q') = true) :
    (Pattern.path x).contains q = (Pattern.path y).contains q' := by
  rw [Path.contains_congr_right hq]
  exact Path.contains_congr_left (LawfulPattern.elements_beq hxy) q'

namespace Alike

theorem contains_eq (h : set.Alike set') (hset : set.Consistent) (hset' : set'.Consistent) (hq : (q == q') = true) :
    set.contains q = set'.contains q' := by
  rw [contains_eq_anyOf q hset, contains_eq_anyOf q' hset']
  exact Verdict.anyOf_congr_of_forall₂ h.toList fun x y hxy => contains_congr hxy hq

theorem containing_beq (h : set.Alike set') (hset : set.Consistent) (hset' : set'.Consistent)
    (hq : (q == q') = true) : (set.containing q == set'.containing q') = true := by
  rw [← pairwiseEqual_iff, containing, containing, Node.collect_eq hset.sound q.elements fun x _ => rfl,
    Node.collect_eq hset'.sound q'.elements fun x _ => rfl]
  refine List.rel_filter (fun x y hxy => ?_) h.tree.patterns
  show decide _ = true ↔ decide _ = true
  rw [contains_congr hxy hq]

end Alike

end PatternSet

/-! ### Equality as a congruence -/

/-- The elements cannot be told apart: not as a pattern nor as a candidate, nor by where a tree keeps them or looks for
them, nor by a hash function. -/
structure Element.Interchangeable (a b : Element) : Prop where
  contains_left : ∀ c, a.contains c = b.contains c
  contains_right : ∀ e : Element, e.contains a = e.contains b
  isStrict : a.isStrict = b.isStrict
  bucket : a.bucket = b.bucket
  candidateBuckets : a.candidateBuckets = b.candidateBuckets
  hashInput : a.hashInput = b.hashInput
  normalForm : (a.normalForm == b.normalForm) = true

theorem Element.interchangeable {a b : Element} (h : (a == b) = true) : a.Interchangeable b where
  contains_left := contains_congr_left h
  contains_right := contains_congr_right h
  isStrict := isStrict_congr h
  bucket := bucket_congr h
  candidateBuckets := candidateBuckets_congr h
  hashInput := hashInput_eq_iff.2 h
  normalForm := normalForm_congr h

namespace PatternSet

variable {P : Type u} [Pattern P]

/-- The sets give equal answers to equal questions, and equal patterns are inserted and removed with the same success. -/
structure Interchangeable (set set' : PatternSet P) : Prop where
  toList : (set.toList == set'.toList) = true
  mem : ∀ x y : P, (x == y) = true → set.mem x = set'.mem y
  inserted : ∀ x y : P, (x == y) = true → (set.insert x).2 = (set'.insert y).2
  removed : ∀ x y : P, (x == y) = true → (set.remove x).2 = (set'.remove y).2
  contains : ∀ q q' : AnyPath, (q == q') = true → set.contains q = set'.contains q'
  containing : ∀ q q' : AnyPath, (q == q') = true → (set.containing q == set'.containing q') = true

theorem Alike.interchangeable [LawfulPattern P] {set set' : PatternSet P} (h : set.Alike set') (hset : set.Consistent)
    (hset' : set'.Consistent) : set.Interchangeable set' where
  toList := pairwiseEqual_iff.1 h.toList
  mem _ _ hxy := h.mem_eq hxy
  inserted _ _ hxy := (h.insert hxy).1
  removed _ _ hxy := (h.remove hxy).1
  contains _ _ hq := h.contains_eq hset hset' hq
  containing _ _ hq := h.containing_beq hset hset' hq

/-- The equality of elements is an equivalence, for which an ascending slice from `0` is equal to the one without a
start, also under a recursive descent. Equal elements are interchangeable, and so are equal paths, as patterns and as
candidates: one path contains another one with the same verdict as equal paths do, and sets that were built by equal
commands give equal answers for equal candidates. Of one set, even the same patterns contain equal candidates, in the
same order. -/
theorem equality_is_congruence [LawfulPattern P] :
    Equivalence (fun a b : Element => (a == b) = true) ∧
    (∀ s : Slice, s.start = none → 0 < s.step →
      (Element.slice { s with start := some 0 } == .slice s) = true ∧
        (Element.descent (.slice { s with start := some 0 }) == .descent (.slice s)) = true) ∧
    (∀ a b : Element, (a == b) = true → a.Interchangeable b) ∧
    (∀ (scope scope' : Scope) (p p' : Path scope) (q q' : Path scope'), (p == p') = true → (q == q') = true →
      p.contains q = p'.contains q') ∧
    (∀ commands commands' : List (Command P), (commands == commands') = true →
      (run commands).Interchangeable (run commands')) ∧
    ∀ (commands : List (Command P)) (q q' : AnyPath), (q == q') = true →
      (run commands).containing q = (run commands).containing q' := by
  refine ⟨⟨fun _ => BEq.rfl, BEq.symm, BEq.trans⟩, fun s hs hstep => ?_, fun a b => Element.interchangeable,
    fun scope scope' p p' q q' hp hq => ?_, fun commands commands' hc => ?_, fun commands q q' hq => ?_⟩
  · have hslice : ((({ s with start := some 0 } : Slice)) == s) = true := by
      rw [Slice.beq_iff]
      simp [Slice.canonical, Slice.effectiveStart, hs, hstep]
    exact ⟨hslice, hslice⟩
  · rw [Path.contains_congr_left hp, Path.contains_congr_right hq]
  · exact (alike_run hc).interchangeable (consistent_run commands) (consistent_run commands')
  · exact (consistent_run commands).containing_congr hq

/-- The paths `$..[:5]` and `$..[0:5]` are equal. So a set with the one in place of the other gives the same verdict on
the equal candidates `$.a[:3]` and `$.a[0:3]`. -/
theorem equality_is_congruence_of_default_start :
    let s (start : Option Int64) (stop : Int64) : Element :=
      .slice { start, stop := some stop, step := 1, step_ne_zero := by decide }
    let p : AnyPath := { elements := [.root, .descent (s none 5)], valid := by decide, admitted := rfl }
    let p' : AnyPath := { elements := [.root, .descent (s (some 0) 5)], valid := by decide, admitted := rfl }
    let q : AnyPath := { elements := [.root, .property "a", s none 3], valid := by decide, admitted := rfl }
    let q' : AnyPath := { elements := [.root, .property "a", s (some 0) 3], valid := by decide, admitted := rfl }
    p ≠ p' ∧ (p == p') = true ∧ (q == q') = true ∧
      (run [.insert p]).contains q = (run [.insert p']).contains q' ∧
      (run [.insert p]).containing q = (run [.insert p]).containing q' := by
  intro s p p' q q'
  have hp : (p == p') = true := by decide
  have hq : (q == q') = true := by decide
  have hc : (([.insert p] : List (Command AnyPath)) == [.insert p']) = true := by
    rw [List.cons_beq_cons, Bool.and_eq_true]
    exact ⟨hp, rfl⟩
  obtain ⟨-, -, -, -, hsets, hsame⟩ := equality_is_congruence (P := AnyPath)
  exact ⟨by decide, hp, hq, (hsets _ _ hc).contains q q' hq, hsame _ q q' hq⟩

end PatternSet

end PathContainment
