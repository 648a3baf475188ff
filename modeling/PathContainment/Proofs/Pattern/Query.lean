import Mathlib.Data.List.Basic
import PathContainment.Proofs.Pattern.Tree
import PathContainment.Proofs.Sequence.Layout
import PathContainment.Proofs.Sequence.Meets
import PathContainment.Proofs.Verdict

/-!
# Questions to the tree

Looking up and searching the buckets finds the edges whose elements contain an element of the candidate, each of them
once, and no other edge has a verdict but `fails` (`filter_next`). The answers of a sound tree are therefore those of
its patterns asked one by one (`and_verdict_eq`, `collect_eq`). On the way down a pattern has the verdict on the
elements passed so far and, still to come, that on the elements that are left.
-/

namespace PathContainment.Node

variable {P : Type u} {node : Node P} {rest : P → List Element} {c : Element}

/-- The edges of all buckets. -/
def allEdges (node : Node P) : List (Element × Node P) := node.exact ++ node.property ++ node.index

theorem patterns_eq_allEdges (node : Node P) :
    node.patterns = patternsBelow node.allEdges ++ node.descents ++ node.terminal.toList := by
  rw [patterns_eq, allEdges, patternsBelow_append, patternsBelow_append]

theorem exists_mem_edges {edge : Element × Node P} (h : edge ∈ node.allEdges) : ∃ B, edge ∈ node.edges B := by
  rcases List.mem_append.1 h with h | h
  · rcases List.mem_append.1 h with h | h
    · exact ⟨.exact, h⟩
    · exact ⟨.property, h⟩
  · exact ⟨.index, h⟩

/-- The children below edges, with the verdicts on the elements of the edges. -/
private def asked (c : Element) (es : List (Element × Node P)) : List (Verdict × Node P) :=
  (es.map fun edge => (edge.1.contains c, edge.2)).filter (·.1 ≠ .fails)

private theorem asked_eq_nil {es : List (Element × Node P)} (h : ∀ edge ∈ es, edge.1.contains c = .fails) :
    asked c es = [] := by
  rw [asked, List.filter_eq_nil_iff]
  intro a ha
  obtain ⟨edge, hedge, rfl⟩ := List.mem_map.1 ha
  simp [h edge hedge]

private theorem asked_append (es es' : List (Element × Node P)) : asked c (es ++ es') = asked c es ++ asked c es' := by
  rw [asked, List.map_append, List.filter_append]; rfl

/-- The edges of a bucket that is not searched have no verdict but `fails`. -/
private theorem asked_of_not_mem {B : Bucket} (h : Sound rest node) (hB : B ∉ c.normalForm.candidateBuckets)
    (hne : ∀ edge ∈ node.edges B, B = .exact → (edge.1 == c.normalForm) = false) :
    asked c (node.edges B) = [] := by
  refine asked_eq_nil fun edge hedge => ?_
  by_contra hn
  rcases Element.mem_candidateBuckets_or_beq ((h.edges B).bucket edge hedge) hn with hmem | ⟨hexact, heq⟩
  · exact hB hmem
  · rw [hne edge hedge hexact] at heq
    cases heq

/-- Looking up the normal form finds the edge of the first bucket that contains the candidate. -/
private theorem lookup_eq_asked (h : Sound rest node) (hn : c.normalForm.bucket = some .exact) :
    (child? node.exact c.normalForm).toList.map (Verdict.holds, ·) = asked c node.exact := by
  have hnot := Element.exact_not_mem_candidateBuckets hn
  cases hc : child? node.exact c.normalForm with
  | none =>
    refine (asked_of_not_mem (B := .exact) h hnot fun edge hedge _ => ?_).symm
    rw [BEq.comm]
    exact child?_eq_none_iff.1 hc edge hedge
  | some child =>
    obtain ⟨before, key, after, hsplit, hk, hb⟩ := exists_split_of_child? hc
    have hfit := h.edges .exact
    have hd : DistinctKeys (before ++ (key, child) :: after) := hsplit ▸ hfit.distinct
    have hother : ∀ edge ∈ node.exact, (c.normalForm == edge.1) = false → edge.1.contains c = .fails := by
      intro edge hedge hne
      by_contra hf
      rcases Element.mem_candidateBuckets_or_beq (hfit.bucket edge hedge) hf with hmem | ⟨-, heq⟩
      · exact hnot hmem
      · rw [BEq.comm, hne] at heq
        cases heq
    have hkey : key.contains c = .holds :=
      Element.contains_of_beq_normalForm (hfit.bucket (key, child) (by show _ ∈ node.exact; rw [hsplit]; simp))
        (BEq.symm hk)
    have hbefore : asked c before = [] := by
      refine asked_eq_nil fun edge hedge => hother edge ?_ (hb edge hedge)
      rw [hsplit]; exact List.mem_append_left _ hedge
    have hafter : asked c after = [] := by
      refine asked_eq_nil fun edge hedge => hother edge ?_ ?_
      · rw [hsplit]; exact List.mem_append_right _ (List.mem_cons_of_mem _ hedge)
      · unfold DistinctKeys at hd
        rw [List.map_append, List.map_cons] at hd
        have hd' := List.pairwise_cons.1 (List.pairwise_append.1 hd).2.1
        rw [BEq.congr_left hk]
        exact hd'.1 edge.1 (List.mem_map_of_mem hedge)
    rw [hsplit, asked_append, hbefore, ← List.singleton_append, asked_append, hafter]
    simp [asked, hkey]

private theorem own_append_eq_asked (h : Sound rest node) (c : Element) :
    (if c.normalForm.bucket = some .exact then (child? node.exact c.normalForm).toList else []).map
        (Verdict.holds, ·) ++
      (if Bucket.exact ∈ c.normalForm.candidateBuckets then asked c node.exact else []) = asked c node.exact := by
  by_cases hn : c.normalForm.bucket = some .exact
  · rw [if_pos hn, if_neg (Element.exact_not_mem_candidateBuckets hn), List.append_nil]
    exact lookup_eq_asked h hn
  · rw [if_neg hn]
    split
    · rfl
    · rename_i hmem
      refine (asked_of_not_mem (B := .exact) h hmem fun edge hedge _ => ?_).symm
      cases heq : edge.1 == c.normalForm with
      | false => rfl
      | true => exact absurd ((Element.bucket_congr heq).symm.trans ((h.edges .exact).bucket edge hedge)) hn

private theorem searched_eq_asked {B : Bucket} (h : Sound rest node) (hB : B ≠ .exact) :
    (if B ∈ c.normalForm.candidateBuckets then asked c (node.edges B) else []) = asked c (node.edges B) := by
  split
  · rfl
  · rename_i hmem
    exact (asked_of_not_mem h hmem fun edge hedge he => absurd he hB).symm

private theorem filter_own (l : List (Node P)) :
    (l.map (Verdict.holds, ·)).filter (·.1 ≠ .fails) = l.map (Verdict.holds, ·) := by
  rw [List.filter_eq_self]
  intro a ha
  obtain ⟨child, -, rfl⟩ := List.mem_map.1 ha
  rfl

/-- Of the edges of a node, the ones to go on with are found, each of them once. -/
theorem filter_next (h : Sound rest node) (c : Element) :
    (node.next c).filter (·.1 ≠ .fails) =
      (node.allEdges.map fun edge => (edge.1.contains c, edge.2)).filter (·.1 ≠ .fails) := by
  show _ = asked c node.allEdges
  rw [next]
  cases hc : c.isDescent with
  | true =>
    refine (asked_eq_nil fun edge hedge => ?_).symm
    obtain ⟨B, hB⟩ := exists_mem_edges hedge
    exact Element.contains_eq_fails_of_isDescent
      (Element.isDescent_eq_false_of_bucket ((h.edges B).bucket edge hB)) hc
  | false =>
    have hproperty := searched_eq_asked (c := c) (B := .property) h (by decide)
    have hindex := searched_eq_asked (c := c) (B := .index) h (by decide)
    have hexact := own_append_eq_asked h c
    rw [if_neg (by simp), List.filter_append, List.filter_flatMap, filter_own, Element.flatMap_candidateBuckets,
      ← List.append_assoc, ← List.append_assoc, allEdges, asked_append, asked_append]
    exact congrArg₂ (· ++ ·) (congrArg₂ (· ++ ·) hexact hproperty) hindex

/-- A pattern below an edge goes on with the element of the edge. -/
theorem rest_of_mem_edge {edge : Element × Node P} {x : P} (h : Sound rest node) (he : edge ∈ node.allEdges)
    (hx : x ∈ edge.2.patterns) :
    x ∈ node.patterns ∧ ∃ e, rest x = e :: (rest x).tail ∧ e.isDescent = false ∧ (e == edge.1) = true := by
  obtain ⟨B, hB⟩ := exists_mem_edges he
  obtain ⟨e, l, hl, heq⟩ := (h.edges B).leads edge hB x hx
  have hb := (Element.bucket_congr heq).trans ((h.edges B).bucket edge hB)
  refine ⟨mem_patterns.2 (.inl ⟨B, edge, hB, hx⟩), e, ?_, Element.isDescent_eq_false_of_bucket hb, heq⟩
  rw [hl]; rfl

/-- The verdict on a pattern below an edge is composed of that on the edge and that on what is left. -/
theorem contains_rest_of_mem_edge {edge : Element × Node P} {x : P} (h : Sound rest node)
    (he : edge ∈ node.allEdges) (hx : x ∈ edge.2.patterns) (c : Element) (l : List Element) :
    Sequence.contains (rest x) (c :: l) = (edge.1.contains c).and (Sequence.contains (rest x).tail l) := by
  obtain ⟨-, e, hr, hd, heq⟩ := rest_of_mem_edge h he hx
  rw [hr, Sequence.contains_cons_cons hd, Element.meets_eq_contains hd, Element.contains_congr_left heq]
  rfl

/-- A pattern that does not end at the node contains no candidate that ends here. -/
theorem contains_rest_nil {x : P} (h : Sound rest node) (hx : x ∈ patternsBelow node.allEdges ++ node.descents) :
    x ∈ node.patterns ∧ Sequence.contains (rest x) [] = .fails := by
  rcases List.mem_append.1 hx with hx | hx
  · obtain ⟨edge, hedge, hx⟩ := mem_patternsBelow.1 hx
    obtain ⟨hmem, e, hr, -⟩ := rest_of_mem_edge h hedge hx
    rw [hr]
    exact ⟨hmem, Sequence.contains_cons_nil e _⟩
  · obtain ⟨e, l, hr, -⟩ := h.descents hx
    rw [hr]
    exact ⟨mem_patterns.2 (.inr (.inl hx)), Sequence.contains_cons_nil e l⟩

section
variable [Pattern P] {candidate : AnyPath}

theorem verdict_cons (node : Node P) (l : List Element) :
    node.verdict candidate (c :: l) =
      (Verdict.anyOf (fun a => a.1.and (a.2.verdict candidate l)) (node.next c)).or
        (Verdict.anyOf (fun x => (Pattern.path x).contains candidate) node.descents) := rfl

theorem collect_cons (node : Node P) (l : List Element) :
    node.collect candidate (c :: l) =
      ((node.next c).flatMap fun a => if a.1 = .holds then a.2.collect candidate l else []) ++
        node.descents.filter fun x => (Pattern.path x).contains candidate = .holds := rfl

/-- The verdict of a sound node is the greatest of the verdicts on its patterns. -/
theorem and_verdict_eq (h : Sound rest node) (l : List Element) (v : Verdict)
    (hv : ∀ x ∈ node.patterns, (Pattern.path x).contains candidate = v.and (Sequence.contains (rest x) l)) :
    v.and (node.verdict candidate l) =
      Verdict.anyOf (fun x => (Pattern.path x).contains candidate) node.patterns := by
  -- on the way down `v` takes up the verdicts on the elements of the edges
  induction l generalizing node rest v with
  | nil =>
    have hothers : Verdict.anyOf (fun x => (Pattern.path x).contains candidate)
        (patternsBelow node.allEdges ++ node.descents) = .fails := by
      refine Verdict.anyOf_eq_fails_iff.2 fun x hx => ?_
      obtain ⟨hmem, hf⟩ := contains_rest_nil h hx
      rw [hv x hmem, hf, Verdict.and_fails]
    rw [verdict, patterns_eq_allEdges, Verdict.anyOf_append, hothers, Verdict.fails_or]
    cases ht : node.terminal with
    | none => exact Verdict.and_fails v
    | some t =>
      have htv := hv t (mem_patterns.2 (.inr (.inr ht)))
      rw [h.terminal ht, Sequence.contains] at htv
      rw [Option.toList_some, Verdict.anyOf, Verdict.anyOf, Verdict.or_fails, htv]
      rfl
  | cons c l ih =>
    have hedges : v.and (Verdict.anyOf (fun a => a.1.and (a.2.verdict candidate l)) (node.next c)) =
        Verdict.anyOf (fun x => (Pattern.path x).contains candidate) (patternsBelow node.allEdges) := by
      have hfails : ∀ a : Verdict × Node P, decide (a.1 ≠ .fails) = false →
          v.and (a.1.and (a.2.verdict candidate l)) = .fails := by
        intro a ha
        rw [of_not_not (of_decide_eq_false ha), Verdict.fails_and, Verdict.and_fails]
      rw [Verdict.and_anyOf, ← Verdict.anyOf_filter (p := (·.1 ≠ .fails)) fun a _ ha => hfails a ha,
        filter_next h c, Verdict.anyOf_filter fun a _ ha => hfails a ha, Verdict.anyOf_map, patternsBelow_eq,
        Verdict.anyOf_flatMap]
      refine Verdict.anyOf_congr fun edge hedge => ?_
      obtain ⟨B, hB⟩ := exists_mem_edges hedge
      rw [← Verdict.and_assoc]
      refine ih (h.child hB) _ fun x hx => ?_
      rw [hv x (rest_of_mem_edge h hedge hx).1, contains_rest_of_mem_edge h hedge hx, Verdict.and_assoc]
    have hdescents : v.and (Verdict.anyOf (fun x => (Pattern.path x).contains candidate) node.descents) =
        Verdict.anyOf (fun x => (Pattern.path x).contains candidate) node.descents := by
      rw [Verdict.and_anyOf]
      refine Verdict.anyOf_congr fun x hx => ?_
      -- a pattern that is compared as a whole has been compared with the elements above as well
      rw [hv x (mem_patterns.2 (.inr (.inl hx))), ← Verdict.and_assoc]
      cases v <;> rfl
    have hterminal : Verdict.anyOf (fun x => (Pattern.path x).contains candidate) node.terminal.toList = .fails := by
      refine Verdict.anyOf_eq_fails_iff.2 fun x hx => ?_
      have ht := Option.mem_toList.1 hx
      rw [hv x (mem_patterns.2 (.inr (.inr ht))), h.terminal ht, Sequence.contains]
      exact Verdict.and_fails v
    rw [verdict_cons, Verdict.and_or, hedges, hdescents, patterns_eq_allEdges, Verdict.anyOf_append,
      Verdict.anyOf_append, hterminal, Verdict.or_fails]

private theorem flatMap_filter_of_nil {α β : Type u} {p : α → Bool} {f : α → List β} {l : List α}
    (h : ∀ a ∈ l, p a = false → f a = []) : (l.filter p).flatMap f = l.flatMap f := by
  induction l with
  | nil => rfl
  | cons a l ih =>
    have hl := ih fun b hb => h b (List.mem_cons_of_mem _ hb)
    cases hp : p a with
    | true => rw [List.filter_cons_of_pos hp, List.flatMap_cons, List.flatMap_cons, hl]
    | false =>
      rw [List.filter_cons_of_neg (by simp [hp]), hl, List.flatMap_cons, h a (List.mem_cons_self ..) hp,
        List.nil_append]

/-- A sound node that all its patterns lead to lists those of them that hold. -/
theorem collect_eq (h : Sound rest node) (l : List Element)
    (hv : ∀ x ∈ node.patterns, (Pattern.path x).contains candidate = Sequence.contains (rest x) l) :
    node.collect candidate l =
      node.patterns.filter fun x => (Pattern.path x).contains candidate = .holds := by
  induction l generalizing node rest with
  | nil =>
    have hothers : (patternsBelow node.allEdges ++ node.descents).filter
        (fun x => (Pattern.path x).contains candidate = .holds) = [] := by
      rw [List.filter_eq_nil_iff]
      intro x hx
      obtain ⟨hmem, hf⟩ := contains_rest_nil h hx
      rw [hv x hmem, hf]
      simp
    rw [collect, patterns_eq_allEdges, List.filter_append, hothers, List.nil_append]
    cases ht : node.terminal with
    | none => rfl
    | some t =>
      have htv := hv t (mem_patterns.2 (.inr (.inr ht)))
      rw [h.terminal ht, Sequence.contains] at htv
      rw [Option.toList_some, List.filter_cons_of_pos (by rw [htv]; rfl), List.filter_nil]
  | cons c l ih =>
    have hedges : ((node.next c).flatMap fun a => if a.1 = .holds then a.2.collect candidate l else []) =
        (patternsBelow node.allEdges).filter fun x => (Pattern.path x).contains candidate = .holds := by
      have hnil : ∀ a : Verdict × Node P, decide (a.1 ≠ .fails) = false →
          (if a.1 = .holds then a.2.collect candidate l else []) = [] := by
        intro a ha
        rw [of_not_not (of_decide_eq_false ha)]
        rfl
      rw [← flatMap_filter_of_nil (p := (·.1 ≠ .fails)) fun a _ ha => hnil a ha, filter_next h c,
        flatMap_filter_of_nil fun a _ ha => hnil a ha, List.flatMap_map, patternsBelow_eq, List.filter_flatMap]
      refine List.flatMap_congr fun edge hedge => ?_
      obtain ⟨B, hB⟩ := exists_mem_edges hedge
      have hedgev : ∀ x ∈ edge.2.patterns, (Pattern.path x).contains candidate =
          (edge.1.contains c).and (Sequence.contains (rest x).tail l) := by
        intro x hx
        rw [hv x (rest_of_mem_edge h hedge hx).1, contains_rest_of_mem_edge h hedge hx]
      show (if edge.1.contains c = .holds then edge.2.collect candidate l else []) = _
      by_cases hk : edge.1.contains c = .holds
      · rw [if_pos hk]
        exact ih (h.child hB) fun x hx => by rw [hedgev x hx, hk, Verdict.holds_and]
      · rw [if_neg hk]
        refine (List.filter_eq_nil_iff.2 fun x hx => ?_).symm
        rw [decide_eq_true_eq, hedgev x hx]
        intro hholds
        exact hk (Verdict.holds_le.1 (Verdict.le_and_iff.1 (Verdict.holds_le.2 hholds)).1)
    have hterminal : node.terminal.toList.filter (fun x => (Pattern.path x).contains candidate = .holds) = [] := by
      rw [List.filter_eq_nil_iff]
      intro x hx
      have ht := Option.mem_toList.1 hx
      rw [hv x (mem_patterns.2 (.inr (.inr ht))), h.terminal ht, Sequence.contains]
      simp
    rw [collect_cons, hedges, patterns_eq_allEdges, List.filter_append, List.filter_append, hterminal, List.append_nil]

end

end PathContainment.Node
