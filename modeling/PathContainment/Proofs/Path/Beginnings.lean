import PathContainment.Path.Basic
import PathContainment.Proofs.Element.Equality

/-!
# Beginnings of paths

One path is a beginning of another (`Path.IsBeginning`) when it is equal to it or when the other goes on after it.
Equality identifies two ways of writing a slice, so a beginning is in general not a part of the other path as it is
written. But it is one of the canonical forms: `Sequence.isPrefixOf_iff` turns beginnings into prefixes of lists in the
ordinary sense, of which two of the same list are ordered by their lengths.

The operations on beginnings are defined each by itself. Together they say that the longest common beginning is the
greatest one, that what a child adds to a path leads to the child when it is appended, and that appending is undone by
removing as many elements (`Path.beginnings_agree`).
-/

namespace PathContainment

open Element (canonical)

namespace Sequence

variable {l l' c : List Element}

theorem isPrefixOf_iff : l.isPrefixOf l' = true ↔ l.map canonical <+: l'.map canonical := by
  induction l generalizing l' with
  | nil => simp
  | cons e l ih =>
    cases l' with
    | nil => simp
    | cons e' l' =>
      rw [List.isPrefixOf_cons_cons, Bool.and_eq_true, Element.beq_iff, ih, List.map_cons, List.map_cons,
        List.cons_prefix_cons]

end Sequence

namespace Path

open Sequence (isPrefixOf_iff)

/-! ### The common length -/

section
variable {l l' c : List Element}

theorem commonLength_le_length : commonLength l l' ≤ l.length := by
  fun_induction commonLength l l' with
  | case1 e rest e' rest' _ ih => exact Nat.succ_le_succ ih
  | case2 | case3 => exact Nat.zero_le _

theorem commonLength_comm (l l' : List Element) : commonLength l l' = commonLength l' l := by
  fun_induction commonLength l l' with
  | case1 e rest e' rest' h ih => rw [commonLength, if_pos (BEq.symm h), ih]
  | case2 e rest e' rest' h => rw [commonLength, if_neg fun h' => h (BEq.symm h')]
  | case3 l l' h =>
    unfold commonLength
    split
    · exact absurd rfl (h _ _ _ _ rfl)
    · rfl

/-- The elements that two sequences have in common are the beginning of both. -/
theorem take_commonLength (l l' : List Element) :
    (l.take (commonLength l l')).map canonical = (l'.take (commonLength l l')).map canonical := by
  fun_induction commonLength l l' with
  | case1 e rest e' rest' h ih =>
    rw [List.take_succ_cons, List.take_succ_cons, List.map_cons, List.map_cons, Element.beq_iff.1 h, ih]
  | case2 | case3 => rfl

/-- No common beginning is longer. -/
theorem length_le_commonLength (h : c.map canonical <+: l.map canonical) (h' : c.map canonical <+: l'.map canonical) :
    c.length ≤ commonLength l l' := by
  induction c generalizing l l' with
  | nil => exact Nat.zero_le _
  | cons x c ih =>
    cases l with
    | nil => simp at h
    | cons e l =>
      cases l' with
      | nil => simp at h'
      | cons e' l' =>
        simp only [List.map_cons, List.cons_prefix_cons] at h h'
        have heq : (e == e') = true := Element.beq_iff.2 (h.1.symm.trans h'.1)
        rw [commonLength, if_pos heq]
        exact Nat.succ_le_succ (ih h.2 h'.2)

end

variable {scope scope' : Scope} {a b d : Path scope}

/-! ### Beginnings -/

/-- The path is equal to the other one, or the other one goes on after it. -/
def IsBeginning (c : Path scope') (p : Path scope) : Prop :=
  (c.elements == p.elements) = true ∨ p.startsWith c = true

theorem startsWith_iff {p : Path scope} {c : Path scope'} :
    p.startsWith c = true ↔ c.length < p.length ∧ c.elements.map canonical <+: p.elements.map canonical := by
  rw [startsWith, Bool.and_eq_true, decide_eq_true_eq, isPrefixOf_iff]

theorem isBeginning_iff {p : Path scope} {c : Path scope'} :
    c.IsBeginning p ↔ c.elements.map canonical <+: p.elements.map canonical := by
  rw [IsBeginning, Element.list_beq_iff, startsWith_iff]
  constructor
  · rintro (heq | ⟨-, hp⟩)
    · exact heq ▸ List.prefix_rfl
    · exact hp
  · intro hp
    rcases Nat.lt_or_ge c.length p.length with hlt | hge
    · exact .inr ⟨hlt, hp⟩
    · refine .inl (hp.eq_of_length_le ?_)
      rw [List.length_map, List.length_map]
      exact hge

/-! ### The longest common beginning -/

theorem commonLength_eq_zero_iff : commonLength a.elements b.elements = 0 ↔ (a.first == b.first) = false := by
  obtain ⟨e, l, ha⟩ := List.exists_cons_of_ne_nil a.valid.ne_nil
  obtain ⟨e', l', hb⟩ := List.exists_cons_of_ne_nil b.valid.ne_nil
  simp only [first, ha, hb, List.head_cons, commonLength]
  cases e == e' <;> simp

theorem parentWith_eq_none_iff : a.parentWith b = none ↔ commonLength a.elements b.elements = 0 := by
  unfold parentWith
  dsimp only
  split
  · rename_i hn
    refine iff_of_false ?_ (Nat.pos_iff_ne_zero.1 hn)
    split
    · exact Option.some_ne_none _
    · split <;> exact Option.some_ne_none _
  · rename_i hn
    exact iff_of_true rfl (Nat.eq_zero_of_not_pos hn)

/-- Whichever path it is taken from, the longest common beginning has the common elements. -/
theorem canonical_parentWith (h : a.parentWith b = some d) :
    d.elements.map canonical = (a.elements.take (commonLength a.elements b.elements)).map canonical := by
  unfold parentWith at h
  dsimp only at h
  split at h
  · split at h
    · rename_i hn
      cases h
      rw [hn, length, List.take_length]
    · split at h
      · rename_i hn
        cases h
        rw [take_commonLength, hn, length, List.take_length]
      · cases h
        rfl
  · cases h

theorem parentWith_isBeginning (h : a.parentWith b = some d) : d.IsBeginning a ∧ d.IsBeginning b := by
  rw [isBeginning_iff, isBeginning_iff, canonical_parentWith h]
  constructor
  · exact (List.take_prefix ..).map _
  · rw [take_commonLength]
    exact (List.take_prefix ..).map _

theorem IsBeginning.parentWith {c : Path scope'} (ha : c.IsBeginning a) (hb : c.IsBeginning b)
    (h : a.parentWith b = some d) : c.IsBeginning d := by
  rw [isBeginning_iff] at ha hb ⊢
  have hd : d.elements.map canonical <+: a.elements.map canonical := isBeginning_iff.1 (parentWith_isBeginning h).1
  refine List.prefix_of_prefix_length_le ha hd ?_
  rw [canonical_parentWith h, List.length_map, List.length_map, List.length_take,
    Nat.min_eq_left commonLength_le_length]
  exact length_le_commonLength ha hb

theorem parentWith_comm (h : a.parentWith b = some d) : ∃ d', b.parentWith a = some d' ∧ (d' == d) = true := by
  cases h' : b.parentWith a with
  | none =>
    rw [parentWith_eq_none_iff, commonLength_comm, ← parentWith_eq_none_iff, h] at h'
    cases h'
  | some d' =>
    refine ⟨d', rfl, ?_⟩
    show (d'.elements == d.elements) = true
    rw [Element.list_beq_iff, canonical_parentWith h, canonical_parentWith h', commonLength_comm b.elements,
      take_commonLength]

/-! ### What a path adds to its beginning -/

theorem isSome_relativePathTo (a : Path scope) (c : Path scope') :
    (a.relativePathTo c).isSome = c.startsWith a := by
  unfold relativePathTo
  split
  · rename_i h
    rw [h]
    rfl
  · rename_i h
    rw [Bool.not_eq_true] at h
    rw [h]
    rfl

theorem elements_relativePathTo {c : Path scope'} {r : Path .relative} (h : a.relativePathTo c = some r) :
    c.startsWith a = true ∧ r.elements = c.elements.drop a.length := by
  unfold relativePathTo at h
  split at h
  · rename_i hc
    cases h
    exact ⟨hc, rfl⟩
  · cases h

theorem appendPath_relativePathTo {c : Path scope'} {r : Path .relative} (h : a.relativePathTo c = some r) :
    ((a.appendPath r).elements == c.elements) = true := by
  obtain ⟨hc, hr⟩ := elements_relativePathTo h
  obtain ⟨-, hp⟩ := startsWith_iff.1 hc
  -- the elements of the path are the first ones of the child, up to equality
  have htake : a.elements.map canonical = (c.elements.take a.length).map canonical := by
    rw [List.prefix_iff_eq_take.1 hp, List.map_take, List.length_map]
    rfl
  show (a.elements ++ r.elements == c.elements) = true
  rw [Element.list_beq_iff, List.map_append, htake, hr, ← List.map_append, List.take_append_drop]

theorem startsWith_appendPath (a : Path scope) (r : Path .relative) : (a.appendPath r).startsWith a = true := by
  rw [startsWith_iff]
  constructor
  · have := r.length_pos
    simp only [length, appendPath, List.length_append] at this ⊢
    omega
  · rw [appendPath, List.map_append]
    exact List.prefix_append ..

@[ext]
theorem ext {p q : Path scope} (h : p.elements = q.elements) : p = q := by
  cases p
  cases q
  cases h
  rfl

theorem relativePathTo_appendPath (a : Path scope) (r : Path .relative) :
    a.relativePathTo (a.appendPath r) = some r := by
  have hsome : (a.relativePathTo (a.appendPath r)).isSome = true := by
    rw [isSome_relativePathTo, startsWith_appendPath]
  obtain ⟨s, hs⟩ := Option.isSome_iff_exists.1 hsome
  rw [hs, Option.some_inj]
  ext1
  rw [(elements_relativePathTo hs).2]
  exact List.drop_left

theorem removeLast_appendPath (a : Path scope) (r : Path .relative) :
    (a.appendPath r).removeLast r.length = some a := by
  have ha := a.length_pos
  have hr := r.length_pos
  have hlength : (a.appendPath r).length = a.length + r.length := List.length_append
  unfold removeLast
  rw [if_neg (by omega), dif_pos (by omega), Option.some_inj]
  ext1
  show (a.elements ++ r.elements).take _ = _
  rw [hlength, Nat.add_sub_cancel]
  exact List.take_left

/-! ### The operations together -/

/-- Two paths have a common beginning exactly when they begin with equal elements. The longest one is a beginning of
both that has every other one as its beginning, and taken from the other path it is equal. What a child adds to a path
is there exactly when the child goes on after the path, and appended to the path it leads to the child. A path with
another one appended goes on after it, adds the other one to it, and is the path again once as many elements are
removed. -/
theorem beginnings_agree (a b : Path scope) (c : Path scope') (r : Path .relative) :
    (a.parentWith b = none ↔ (a.first == b.first) = false) ∧
    (∀ d, a.parentWith b = some d →
      d.IsBeginning a ∧ d.IsBeginning b ∧ (c.IsBeginning a → c.IsBeginning b → c.IsBeginning d) ∧
      ∃ d', b.parentWith a = some d' ∧ (d' == d) = true) ∧
    (a.relativePathTo c).isSome = c.startsWith a ∧
    (∀ s, a.relativePathTo c = some s → ((a.appendPath s).elements == c.elements) = true) ∧
    (a.appendPath r).startsWith a = true ∧
    a.relativePathTo (a.appendPath r) = some r ∧
    (a.appendPath r).removeLast r.length = some a := by
  refine ⟨parentWith_eq_none_iff.trans commonLength_eq_zero_iff, fun d h => ?_, isSome_relativePathTo a c,
    fun s h => appendPath_relativePathTo h, startsWith_appendPath a r, relativePathTo_appendPath a r,
    removeLast_appendPath a r⟩
  obtain ⟨hda, hdb⟩ := parentWith_isBeginning h
  exact ⟨hda, hdb, fun hca hcb => hca.parentWith hcb h, parentWith_comm h⟩

/-- The longest common beginning of `$.a[0:5].b` and `$.a[:5].c` is `$.a[0:5]`, or `$.a[:5]`, which is equal, and `$.a`
is a beginning of it. The path `$.a[:5].b[1]` adds `[1]` to the first one, with its slice written in another way. -/
theorem beginnings_agree_of_slice :
    let written : Slice := { start := some 0, stop := some 5, step := 1, step_ne_zero := by decide }
    let omitted : Slice := { start := none, stop := some 5, step := 1, step_ne_zero := by decide }
    let a : AnyPath :=
      { elements := [.root, .property "a", .slice written, .property "b"], valid := by decide, admitted := rfl }
    let b : AnyPath :=
      { elements := [.root, .property "a", .slice omitted, .property "c"], valid := by decide, admitted := rfl }
    let c : AnyPath := { elements := [.root, .property "a"], valid := by decide, admitted := rfl }
    let child : AnyPath :=
      { elements := [.root, .property "a", .slice omitted, .property "b", .index 1], valid := by decide
        admitted := rfl }
    (∃ d, a.parentWith b = some d ∧ d.text = "$.a[0:5]" ∧ c.IsBeginning d ∧
      ∃ d', b.parentWith a = some d' ∧ (d' == d) = true) ∧
    ∃ s, a.relativePathTo child = some s ∧ s.text = "[1]" ∧ ((a.appendPath s).elements == child.elements) = true ∧
      (a.appendPath s).removeLast s.length = some a := by
  intro written omitted a b c child
  let r : Path .relative := { elements := [.index 1], valid := by decide, admitted := rfl }
  obtain ⟨-, hparent, -⟩ := beginnings_agree a b c r
  obtain ⟨-, -, -, happend, -, -, hremove⟩ := beginnings_agree a b child r
  obtain ⟨d, hd⟩ : ∃ d, a.parentWith b = some d := ⟨_, rfl⟩
  obtain ⟨-, -, hgreatest, hcomm⟩ := hparent d hd
  have hca : c.IsBeginning a := .inr (by decide)
  have hcb : c.IsBeginning b := .inr (by decide)
  refine ⟨⟨d, hd, ?_, hgreatest hca hcb, hcomm⟩, r, rfl, by decide +kernel, happend r rfl, hremove⟩
  cases hd
  decide +kernel

end Path

end PathContainment
