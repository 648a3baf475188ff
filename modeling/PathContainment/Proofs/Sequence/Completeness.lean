import Mathlib.Data.List.Basic
import Mathlib.Data.List.Induction
import PathContainment.Proofs.Element.Members

/-!
# When containment is found

If a path contains every concrete path that a candidate contains, the containment of the candidate should be found.
What is looked for is one layout for all concrete paths of the candidate, and there need not be one. With two recursive
descents in the pattern, `$..[0][1]..c` contains `$[0][0][1].c` and `$[0][1][1].c`, but in different layouts, and
`$[0][0,1][1].c` is taken for not contained (`Path.contains_fails_of_two_descents`). Recursive descents of the candidate
have the same effect: wherever `$.a..[3]..x` descends to, a property is followed by an index at some place, as
`$..*[*]..x` asks for, but this place is not the same in all concrete paths.

The containment is found where this cannot happen (`Path.contains_of_concrete`):

* A pattern with one recursive descent leaves no choice. The elements in front of it are laid out from the start of
  the candidate, those behind it from the end.
* A candidate that is made of single children and wildcards has a concrete path that stands for all others.

Nor may it depend on the largest index that a slice without end is infinite (`Element.LeavesRoom`): the only index that
`$[9223372036854775807:]` covers is the largest one, but `$[9223372036854775807]` is taken not to contain it
(`Path.contains_fails_of_no_room`).
-/

namespace PathContainment

namespace Element

variable {e c m : Element}

theorem meets_eq_underlying_contains (hc : c.isDescent = false) : e.meets c = e.underlying.contains c := by
  have hd : c.isDescent = true → e.isDescent = true := fun hd => by rw [hc] at hd; cases hd
  rw [meets_eq_contains_underlying hd, underlying_of_not_isDescent hc]

theorem Regular.exists_child (h : c.Regular) : ∃ m : Element, m.IsChild ∧ c.meets m = .holds := by
  obtain ⟨m, hm, hcm⟩ := Element.exists_child h.underlying h.valid.underlying.2
  exact ⟨m, hm, (meets_eq_underlying_contains hm.isDescent).trans hcm⟩

/-- No element can be laid out on all children. -/
theorem not_meets_all (he : e.Valid) (h : ∀ m : Element, m.IsChild → e.meets m = .holds) : False := by
  have hv : (property "").Valid := by decide
  have hname := h _ (isChild_property hv)
  have hindex := h _ isChild_index_succ
  rw [meets_eq_underlying_contains rfl] at hname hindex
  exact not_contains_both he.underlying.2 hv hname hindex

/-- Only the root contains the root. -/
theorem not_meets_root (he : e.Valid) (hd : e.isDescent = true) : e.meets root ≠ .holds := by
  cases e with
  | descent inner =>
    cases inner with
    | root => cases he
    | _ => exact fun h => by cases h
  | _ => cases hd

end Element

namespace Sequence

open Element

variable {e : Element} {p q r : List Element}

/-- The pattern has a layout along the candidate all of whose pairs hold. -/
private abbrev LaidOut (p q : List Element) : Prop := Layout (fun e c => e.meets c = .holds) p q

/-- The pattern contains every sequence of children that the candidate contains. -/
private def Covers (p q : List Element) : Prop :=
  ∀ r : List Element, (∀ m ∈ r, m.IsChild) → LaidOut q r → LaidOut p r

/-- The children of the candidate decide what the elements of the pattern contain. -/
private structure Comparable (p q : List Element) : Prop where
  valid : ∀ e ∈ p, e.Valid
  inReach : ∀ e ∈ p, e.InReach
  regular : ∀ c ∈ q, c.Regular
  leavesRoom : ∀ e ∈ p, ∀ c ∈ q, e.LeavesRoom c

private theorem Comparable.mono {p' q' : List Element} (h : Comparable p q) (hp : p' ⊆ p) (hq : q' ⊆ q) :
    Comparable p' q' where
  valid e he := h.valid e (hp he)
  inReach e he := h.inReach e (hp he)
  regular c hc := h.regular c (hq hc)
  leavesRoom e he c hc := h.leavesRoom e (hp he) c (hq hc)

/-- An element is laid out on one of the candidate if it is on all children of this. -/
private theorem Comparable.meets_of_children {c : Element} (h : Comparable p q) (he : e ∈ p) (hc : c ∈ q)
    (hd : c.isDescent = false ∨ e.isDescent = true)
    (hm : ∀ m : Element, m.IsChild → c.meets m = .holds → e.meets m = .holds) : e.meets c = .holds := by
  have hv := (h.valid e he).underlying
  have hregular := h.regular c hc
  have hcd := hregular.valid.underlying.2
  have hroom : e.underlying.LeavesRoom c.underlying := by
    unfold LeavesRoom
    rw [underlying_of_not_isDescent hcd, underlying_of_not_isDescent hv.2]
    exact h.leavesRoom e he c hc
  rw [meets_eq_contains_underlying fun hc => hd.resolve_left (by rw [hc]; decide)]
  refine contains_of_children hv.2 (h.inReach e he).underlying hregular.underlying hcd hroom fun m hchild hcm => ?_
  rw [← meets_eq_underlying_contains hchild.isDescent] at hcm ⊢
  exact hm m hchild hcm

private theorem exists_children (hq : ∀ c ∈ q, c.Regular) :
    ∃ r : List Element, (∀ m ∈ r, m.IsChild) ∧ LaidOut q r := by
  induction q with
  | nil => exact ⟨[], List.forall_mem_nil _, .nil⟩
  | cons c q ih =>
    obtain ⟨hc, hq⟩ := List.forall_mem_cons.1 hq
    obtain ⟨m, hm, hcm⟩ := hc.exists_child
    obtain ⟨r, hr, hl⟩ := ih hq
    exact ⟨m :: r, List.forall_mem_cons.2 ⟨hm, hr⟩, .place hcm hl⟩

/-! ### From the start of the candidate -/

/-- An element that is no recursive descent is laid out on the first element of the candidate. -/
private theorem laidOut_cons {c : Element} (he : e.isDescent = false) (h : LaidOut (e :: p) (c :: q)) :
    e.meets c = .holds ∧ LaidOut p q := by
  cases h with
  | place hec hl => exact ⟨hec, hl⟩
  | pass hd _ =>
    rw [he] at hd
    cases hd

private theorem Covers.cons (he : e.isDescent = false) (h : Comparable (e :: p) q) (hcov : Covers (e :: p) q) :
    ∃ c q', q = c :: q' ∧ e.meets c = .holds ∧ Covers p q' := by
  cases q with
  | nil => exact absurd rfl ((hcov [] (List.forall_mem_nil _) .nil).ne_nil (List.cons_ne_nil _ _))
  | cons c q =>
    obtain ⟨hc, hq⟩ := List.forall_mem_cons.1 h.regular
    cases hcd : c.isDescent with
    | true =>
      -- any child may stand in front of what a recursive descent of the candidate is laid out on
      obtain ⟨r, hr, hl⟩ := exists_children h.regular
      refine (not_meets_all (h.valid e List.mem_cons_self) fun m hm => ?_).elim
      exact (laidOut_cons he (hcov (m :: r) (List.forall_mem_cons.2 ⟨hm, hr⟩) (.pass hcd hl))).1
    | false =>
      have hfront : ∀ m r, m.IsChild → c.meets m = .holds → (∀ m' ∈ r, m'.IsChild) → LaidOut q r →
          e.meets m = .holds ∧ LaidOut p r := by
        intro m r hm hcm hr hl
        exact laidOut_cons he (hcov (m :: r) (List.forall_mem_cons.2 ⟨hm, hr⟩) (.place hcm hl))
      obtain ⟨r, hr, hl⟩ := exists_children hq
      obtain ⟨m, hm, hcm⟩ := hc.exists_child
      refine ⟨c, q, rfl, ?_, fun r' hr' hl' => (hfront m r' hm hcm hr' hl').2⟩
      exact h.meets_of_children List.mem_cons_self List.mem_cons_self (.inl hcd) fun m hm hcm =>
        (hfront m r hm hcm hr hl).1

/-! ### From the end of the candidate -/

private theorem Covers.exists_last (hp : p ≠ []) (hq : ∀ c ∈ q, c.Regular) (hcov : Covers p q) :
    ∃ q' c, q = q' ++ [c] := by
  rcases List.eq_nil_or_concat' q with rfl | h
  · exact absurd rfl ((hcov [] (List.forall_mem_nil _) .nil).ne_nil hp)
  · exact h

private theorem laidOut_append {q' r' : List Element} (hr : ∀ m ∈ r, m.IsChild) (hl : LaidOut q r)
    (hr' : ∀ m ∈ r', m.IsChild) (hl' : LaidOut q' r') (hcov : Covers p (q ++ q')) : LaidOut p (r ++ r') :=
  hcov _ (List.forall_mem_append.2 ⟨hr, hr'⟩) (hl.append hl')

/-- A recursive descent alone is laid out on the last element of the candidate. -/
private theorem Covers.singleton (he : e.isDescent = true) (h : Comparable [e] q) (hcov : Covers [e] q) :
    LaidOut [e] q := by
  obtain ⟨q, c, rfl⟩ := hcov.exists_last (List.cons_ne_nil _ _) h.regular
  obtain ⟨r, hr, hl⟩ := exists_children (List.forall_mem_append.1 h.regular).1
  refine .singleton he (h.meets_of_children List.mem_cons_self (List.mem_append_right _ List.mem_cons_self)
    (.inr he) fun m hm hcm => ?_) q
  exact Layout.last (p := []) (laidOut_append hr hl (List.forall_mem_singleton.2 hm) (.place hcm .nil) hcov)

private theorem Covers.append_singleton (he : e.isDescent = false) (hp : p ≠ []) (h : Comparable (p ++ [e]) q)
    (hcov : Covers (p ++ [e]) q) : ∃ q' c, q = q' ++ [c] ∧ e.meets c = .holds ∧ Covers p q' := by
  obtain ⟨q, c, rfl⟩ := hcov.exists_last (by simp) h.regular
  obtain ⟨hq, hc⟩ := List.forall_mem_append.1 h.regular
  have hc := List.forall_mem_singleton.1 hc
  obtain ⟨r, hr, hl⟩ := exists_children hq
  obtain ⟨m, hm, hcm⟩ := hc.exists_child
  cases hcd : c.isDescent with
  | true =>
    -- any child may stand before what is laid out last, and the last but one element of the pattern would contain it
    obtain ⟨p, e', rfl⟩ := (List.eq_nil_or_concat' p).resolve_left hp
    refine (not_meets_all (h.valid e' (by simp)) fun m' hm' => ?_).elim
    have hlast : LaidOut (p ++ [e'] ++ [e]) (r ++ [m'] ++ [m]) := by
      rw [List.append_assoc r]
      exact laidOut_append hr hl (List.forall_mem_cons.2 ⟨hm', List.forall_mem_singleton.2 hm⟩)
        (.pass hcd (.place hcm .nil)) hcov
    exact (hlast.dropLast he).last
  | false =>
    have hback : ∀ m r, m.IsChild → c.meets m = .holds → (∀ m' ∈ r, m'.IsChild) → LaidOut q r →
        LaidOut (p ++ [e]) (r ++ [m]) := by
      intro m r hm hcm hr hl
      exact laidOut_append hr hl (List.forall_mem_singleton.2 hm) (.place hcm .nil) hcov
    refine ⟨q, c, rfl, ?_, fun r' hr' hl' => (hback m r' hm hcm hr' hl').dropLast he⟩
    exact h.meets_of_children (by simp) (by simp) (.inl hcd) fun m hm hcm => (hback m r hm hcm hr hl).last

/-! ### One recursive descent -/

private theorem laidOut_of_descent (he : e.isDescent = true) (hp : ∀ e' ∈ p, e'.isDescent = false)
    (h : Comparable (e :: p) q) (hcov : Covers (e :: p) q) : LaidOut (e :: p) q := by
  -- the elements behind the recursive descent are laid out from the last one on
  induction p using List.reverseRecOn generalizing q with
  | nil => exact hcov.singleton he h
  | append_singleton p e' ih =>
    have he' : e'.isDescent = false := hp e' (by simp)
    have hp : ∀ e ∈ p, e.isDescent = false := (List.forall_mem_append.1 hp).1
    obtain ⟨q, c, rfl, hec, hcov⟩ := Covers.append_singleton (p := e :: p) he' (List.cons_ne_nil _ _) h hcov
    have hl := ih hp (h.mono (List.subset_append_left (e :: p) [e']) (List.subset_append_left _ _)) hcov
    exact hl.append (.place hec .nil)

private theorem laidOut_of_countP (hp : p.countP Element.isDescent ≤ 1) (h : Comparable p q) (hcov : Covers p q) :
    LaidOut p q := by
  induction p generalizing q with
  | nil =>
    obtain ⟨r, hr, hl⟩ := exists_children h.regular
    cases hcov r hr hl
    cases hl
    exact .nil
  | cons e p ih =>
    cases he : e.isDescent with
    | true =>
      rw [List.countP_cons_of_pos he] at hp
      refine laidOut_of_descent he (fun e' he' => ?_) h hcov
      exact Bool.eq_false_iff.2 (List.countP_eq_zero.1 (by omega) e' he')
    | false =>
      obtain ⟨c, q, rfl, hec, hcov⟩ := hcov.cons he h
      rw [List.countP_cons_of_neg (by rw [he]; decide)] at hp
      exact .place hec (ih hp (h.mono (List.subset_cons_self _ _) (List.subset_cons_self _ _)) hcov)

/-! ### Single children and wildcards -/

/-- A sequence of children that stands for the whole candidate, whatever elements of the pattern are laid out. -/
private theorem exists_generic_children (h : Comparable p q) (hg : ∀ c ∈ q, c.IsGeneric) :
    ∃ r : List Element, (∀ m ∈ r, m.IsChild) ∧ LaidOut q r ∧ ∀ p' ⊆ p, LaidOut p' r → LaidOut p' q := by
  induction q with
  | nil => exact ⟨[], List.forall_mem_nil _, .nil, fun _ _ hl => hl⟩
  | cons c q ih =>
    obtain ⟨hgc, hg⟩ := List.forall_mem_cons.1 hg
    obtain ⟨r, hr, hl, hall⟩ := ih (h.mono (List.Subset.refl _) (List.subset_cons_self _ _)) hg
    obtain ⟨m, hm, hcm, hgeneric⟩ := exists_generic_child (p.map Element.underlying)
      (by simpa using fun e he => (h.inReach e he).underlying) hgc (h.regular c List.mem_cons_self)
    have hmeets : ∀ e ∈ p, e.meets m = .holds → e.meets c = .holds := by
      intro e he hem
      rw [meets_eq_underlying_contains hm.isDescent] at hem
      rw [meets_eq_underlying_contains hgc.isDescent]
      exact hgeneric _ (List.mem_map_of_mem he) (h.valid e he).underlying.2 hem
    refine ⟨m :: r, List.forall_mem_cons.2 ⟨hm, hr⟩, .place ?_ hl, fun p' hp' hl' => ?_⟩
    · rw [meets_eq_contains hgc.isDescent]
      exact hcm
    · cases hl' with
      | place hem hl' =>
        obtain ⟨he, hp'⟩ := List.cons_subset.1 hp'
        exact .place (hmeets _ he hem) (hall _ hp' hl')
      | pass hd hl' => exact .pass hd (hall _ hp' hl')

private theorem laidOut_of_covers (h : Comparable p q)
    (halign : p.countP Element.isDescent ≤ 1 ∨ ∀ c ∈ q, c.IsGeneric) (hcov : Covers p q) : LaidOut p q := by
  rcases halign with hp | hg
  · exact laidOut_of_countP hp h hcov
  · obtain ⟨r, hr, hl, hall⟩ := exists_generic_children h hg
    exact hall p (List.Subset.refl _) (hcov r hr hl)

/-- The root of the candidate leads to the root of the pattern or to a recursive descent. -/
private theorem laidOut_root (h : Comparable (e :: p) q)
    (halign : (e :: p).countP Element.isDescent ≤ 1 ∨ ∀ c ∈ q, c.IsGeneric)
    (hcov : ∀ r : List Element, (∀ m ∈ r, m.IsChild) → LaidOut q r → LaidOut (e :: p) (root :: r)) :
    LaidOut (e :: p) (root :: q) := by
  cases he : e.isDescent with
  | true =>
    refine .pass he (laidOut_of_covers h halign fun r hr hl => ?_)
    cases hcov r hr hl with
    | place hroot _ => exact absurd hroot (not_meets_root (h.valid e List.mem_cons_self) he)
    | pass _ hl => exact hl
  | false =>
    obtain ⟨r, hr, hl⟩ := exists_children h.regular
    refine .place (laidOut_cons he (hcov r hr hl)).1 ?_
    refine laidOut_of_covers (h.mono (List.subset_cons_self _ _) (List.Subset.refl _)) ?_ fun r hr hl =>
      (laidOut_cons he (hcov r hr hl)).2
    exact halign.imp_left (Nat.le_trans (List.sublist_cons_self e p).countP_le)

end Sequence

namespace Path

open Element Sequence

variable {s₁ s₂ : Scope} {p : Path s₁} {q : Path s₂}

/-- The path contains every concrete path that the candidate contains. -/
def ContainsConcrete (p : Path s₁) (q : Path s₂) : Prop :=
  ∀ r : AnyPath, (∀ m ∈ r.elements, m.IsConcrete ∧ m.IsWord) → q.contains r = .holds → p.contains r = .holds

private theorem ContainsConcrete.laidOut (h : p.ContainsConcrete q) {r : List Element} (hv : Sequence.Valid r)
    (hr : ∀ m ∈ r, m.IsConcrete ∧ m.IsWord) (hl : LaidOut q.elements r) : LaidOut p.elements r :=
  contains_eq_holds_iff.1 (h { elements := r, valid := hv, admitted := rfl } hr (contains_eq_holds_iff.2 hl))

private theorem ContainsConcrete.covers (h : p.ContainsConcrete q) : Covers p.elements q.elements := by
  intro r hr hl
  refine h.laidOut ⟨hl.ne_nil q.valid.ne_nil, fun hm => ?_, fun m hm => (hr m hm).valid⟩
    (fun m hm => ⟨(hr m hm).isConcrete, (hr m hm).isWord⟩) hl
  exact (hr _ (List.mem_of_mem_tail hm)).ne_root rfl

private theorem ContainsConcrete.laidOut_root (h : p.ContainsConcrete q) {r : List Element}
    (hr : ∀ m ∈ r, m.IsChild) (hl : LaidOut q.elements (root :: r)) : LaidOut p.elements (root :: r) := by
  refine h.laidOut ⟨List.cons_ne_nil _ _, fun hm => (hr _ hm).ne_root rfl, ?_⟩ ?_ hl
  · exact List.forall_mem_cons.2 ⟨rfl, fun m hm => (hr m hm).valid⟩
  · exact List.forall_mem_cons.2 ⟨⟨trivial, trivial⟩, fun m hm => ⟨(hr m hm).isConcrete, (hr m hm).isWord⟩⟩

/-- If all concrete paths that a candidate contains are contained in a path, then the containment of the candidate
holds, provided that the path has one recursive descent at most, or the candidate is made of single children and
wildcards. -/
theorem contains_of_concrete {p : Path s₁} {q : Path s₂} (hp : ∀ e ∈ p.elements, e.InReach)
    (hq : ∀ c ∈ q.elements, c.InReach ∧ c.HasKnownChildren)
    (hroom : ∀ e ∈ p.elements, ∀ c ∈ q.elements, e.LeavesRoom c)
    (halign : p.elements.countP Element.isDescent ≤ 1 ∨ ∀ c ∈ q.elements, c.IsGeneric)
    (h : p.ContainsConcrete q) : p.contains q = .holds := by
  have hcomparable : ∀ q' ⊆ q.elements, root ∉ q' → Comparable p.elements q' := by
    intro q' hsub hroot
    refine ⟨p.valid.valid_of_mem, hp, fun c hc => ?_, fun e he c hc => hroom e he c (hsub hc)⟩
    obtain ⟨hreach, hk⟩ := hq c (hsub hc)
    exact ⟨fun heq => hroot (heq ▸ hc), q.valid.valid_of_mem c (hsub hc), hreach, hk⟩
  apply contains_eq_holds_iff.2
  obtain ⟨c, q', hqe⟩ := List.exists_cons_of_ne_nil q.valid.ne_nil
  have htail : root ∉ q' := by
    have hm := q.valid.root_not_mem_tail
    rwa [hqe] at hm
  by_cases hc : c = root
  · subst hc
    obtain ⟨e, p', hpe⟩ := List.exists_cons_of_ne_nil p.valid.ne_nil
    have hsub : q' ⊆ q.elements := by
      rw [hqe]
      exact List.subset_cons_self _ _
    have hcov : ∀ r : List Element, (∀ m ∈ r, m.IsChild) → LaidOut q' r → LaidOut p.elements (root :: r) := by
      intro r hr hl
      refine h.laidOut_root hr ?_
      rw [hqe]
      exact .place rfl hl
    have hcq := hcomparable q' hsub htail
    rw [hpe] at hcq halign hcov
    rw [hpe, hqe]
    exact Sequence.laidOut_root hcq (halign.imp_right fun hg c hc => hg c (hsub hc)) hcov
  · have hroot : root ∉ q.elements := by
      rw [hqe]
      exact fun hm => (List.mem_cons.1 hm).elim (Ne.symm hc) htail
    exact laidOut_of_covers (hcomparable _ (List.Subset.refl _) hroot) halign h.covers

/-! ### Paths with finitely many concrete paths -/

/-- Without recursive descents, elements are laid out one by one. -/
private theorem forall₂_of_laidOut {q r : List Element} (hq : ∀ c ∈ q, c.isDescent = false) (h : LaidOut q r) :
    List.Forall₂ (fun c m => c.meets m = .holds) q r := (Layout.iff_forall₂ hq).1 h

private theorem eq_of_meets {c m : Element} (h : c.meets m = .holds) (hc : c.IsConcrete) (hm : m.IsConcrete) :
    m = c := by
  rw [meets_eq_contains hc.isDescent] at h
  exact (hc.contains_iff_eq hm).1 h

private theorem exists_index_of_meets {is : SortedSet Nat} {m : Element} (h : (indexes is).meets m = .holds)
    (hm : m.IsConcrete) : ∃ i ∈ is.toList, m = index i := by
  cases m with
  | index i => exact ⟨i, SortedSet.contains_iff.1 (Verdict.ofBool_eq_holds.1 h), rfl⟩
  | root | property => cases h
  | _ => exact absurd hm id

/-- The path `$..[0:10]` contains all concrete paths of `$.a[2,4]`. -/
theorem contains_of_concrete_of_list :
    let p : AnyPath :=
      { elements := [.root,
          .descent (.slice { start := some 0, stop := some 10, step := 1, step_ne_zero := by decide })]
        valid := by decide, admitted := rfl }
    let q : AnyPath :=
      { elements := [.root, .property "a", .indexes { toList := [2, 4], increasing := by decide }]
        valid := by decide, admitted := rfl }
    p.ContainsConcrete q ∧ p.contains q = .holds := by
  intro p q
  have h : p.ContainsConcrete q := by
    intro r hr hqr
    have hl := forall₂_of_laidOut (by decide) (contains_eq_holds_iff.1 hqr)
    rw [contains]
    generalize r.elements = ms at hr hl ⊢
    obtain _ | ⟨h₀, _ | ⟨h₁, _ | ⟨h₂, ⟨⟩⟩⟩⟩ := hl
    simp only [List.forall_mem_cons] at hr
    obtain ⟨⟨hc₀, -⟩, ⟨hc₁, -⟩, ⟨hc₂, -⟩, -⟩ := hr
    obtain rfl := eq_of_meets h₀ trivial hc₀
    obtain rfl := eq_of_meets h₁ trivial hc₁
    obtain ⟨i, hi, rfl⟩ := exists_index_of_meets h₂ hc₂
    rcases List.mem_cons.1 hi with rfl | hi
    · decide +kernel
    · obtain rfl := List.mem_singleton.1 hi
      decide +kernel
  have hp : ∀ e ∈ p.elements, e.InReach := by simp [p, InReach]
  have hq : ∀ c ∈ q.elements, c.InReach ∧ c.HasKnownChildren := by simp [q, InReach, HasKnownChildren, maxIndex]
  have hroom : ∀ e ∈ p.elements, ∀ c ∈ q.elements, e.LeavesRoom c := by
    simp [p, q, LeavesRoom, underlying]
  exact ⟨h, contains_of_concrete hp hq hroom (.inl (by decide)) h⟩

/-- The path `$..[0][1]..c` contains all concrete paths of `$[0][0,1][1].c`, but this is not found. -/
theorem contains_fails_of_two_descents :
    let p : AnyPath :=
      { elements := [.root, .descent (.index 0), .index 1, .descent (.property "c")]
        valid := by decide, admitted := rfl }
    let q : AnyPath :=
      { elements := [.root, .index 0, .indexes { toList := [0, 1], increasing := by decide }, .index 1, .property "c"]
        valid := by decide, admitted := rfl }
    p.ContainsConcrete q ∧ p.contains q = .fails := by
  intro p q
  refine ⟨fun r hr hqr => ?_, by decide +kernel⟩
  have hl := forall₂_of_laidOut (by decide) (contains_eq_holds_iff.1 hqr)
  rw [contains]
  generalize r.elements = ms at hr hl ⊢
  obtain _ | ⟨h₀, _ | ⟨h₁, _ | ⟨h₂, _ | ⟨h₃, _ | ⟨h₄, ⟨⟩⟩⟩⟩⟩⟩ := hl
  simp only [List.forall_mem_cons] at hr
  obtain ⟨⟨hc₀, -⟩, ⟨hc₁, -⟩, ⟨hc₂, -⟩, ⟨hc₃, -⟩, ⟨hc₄, -⟩, -⟩ := hr
  obtain rfl := eq_of_meets h₀ trivial hc₀
  obtain rfl := eq_of_meets h₁ trivial hc₁
  obtain ⟨i, hi, rfl⟩ := exists_index_of_meets h₂ hc₂
  obtain rfl := eq_of_meets h₃ trivial hc₃
  obtain rfl := eq_of_meets h₄ trivial hc₄
  -- the entry of the list is the second one of the adjacent elements `[0][1]`, or the first one
  rcases List.mem_cons.1 hi with rfl | hi
  · decide +kernel
  · obtain rfl := List.mem_singleton.1 hi
    decide +kernel

/-- The slice that begins at the largest index covers no other one. -/
private theorem eq_maxIndex_of_meets {s : Slice} {r : IndexRange} (hs : s.range = some r) (hleft : r.left = maxIndex)
    {m : Element} (h : (slice s).meets m = .holds) (hm : m.IsConcrete) : m = index maxIndex := by
  cases m with
  | index i =>
    simp only [meets, Element.contains, Slice.containsIndex, hs, Option.map_some, Verdict.ofOption,
      Verdict.ofBool_eq_holds, IndexRange.containsIndex_iff] at h
    have hi := (IndexRange.inWindow_iff.1 h.2.1).1
    have heq : i = maxIndex := by omega
    rw [heq]
  | root | property => cases h
  | _ => exact absurd hm id

/-- The path `$[9223372036854775807]` contains the only concrete path of `$[9223372036854775807:]`, but this is not
found. -/
theorem contains_fails_of_no_room :
    let p : AnyPath := { elements := [.root, .index maxIndex], valid := by decide, admitted := rfl }
    let q : AnyPath :=
      { elements := [.root,
          .slice { start := some 9223372036854775807, stop := none, step := 1, step_ne_zero := by decide }]
        valid := by decide, admitted := rfl }
    p.ContainsConcrete q ∧ p.contains q = .fails := by
  intro p q
  refine ⟨fun r hr hqr => ?_, by decide +kernel⟩
  have hl := forall₂_of_laidOut (by decide) (contains_eq_holds_iff.1 hqr)
  rw [contains]
  generalize r.elements = ms at hr hl ⊢
  obtain _ | ⟨h₀, _ | ⟨h₁, ⟨⟩⟩⟩ := hl
  simp only [List.forall_mem_cons] at hr
  obtain ⟨⟨hc₀, -⟩, ⟨hc₁, -⟩, -⟩ := hr
  obtain rfl := eq_of_meets h₀ trivial hc₀
  obtain rfl := eq_maxIndex_of_meets rfl rfl h₁ hc₁
  decide +kernel

end Path

end PathContainment
