import Mathlib.Data.List.Forall2
import PathContainment.Proofs.Verdict
import PathContainment.Sequence.Containment

/-!
# Layouts

A layout of a pattern along a candidate pairs the elements of the pattern with elements of the candidate, in order and
without gaps, where elements of the candidate may be passed over in front of a recursive descent only, and none is
left over at the end. `Layout R p q` says that there is one whose pairs are all related by `R`.

The verdict on two sequences is at least `v` exactly when they have a layout all of whose pairs have a verdict of at
least `v` (`le_contains_iff`). What is true of single elements is therefore lifted to sequences by rules for layouts:
`Layout.imp` changes the relation, `Layout.map` the elements, and `Layout.comp` composes two layouts.
-/

namespace PathContainment

/-- The pattern can be laid out along the candidate such that all pairs are related. -/
inductive Layout (R : Element → Element → Prop) : List Element → List Element → Prop
  | nil : Layout R [] []
  | place {e c : Element} {p q : List Element} : R e c → Layout R p q → Layout R (e :: p) (c :: q)
  | pass {e c : Element} {p q : List Element} :
      e.isDescent = true → Layout R (e :: p) q → Layout R (e :: p) (c :: q)

namespace Layout

variable {R S T : Element → Element → Prop} {p q r : List Element}

theorem ne_nil (h : Layout R p q) (hp : p ≠ []) : q ≠ [] := by
  cases h with
  | nil => exact absurd rfl hp
  | place _ _ => exact List.cons_ne_nil _ _
  | pass _ _ => exact List.cons_ne_nil _ _

/-- The relation may be weakened for the elements that occur. -/
theorem imp (h : Layout R p q) (hRS : ∀ e ∈ p, ∀ c ∈ q, R e c → S e c) : Layout S p q := by
  induction h with
  | nil => exact .nil
  | place hec _ ih =>
    refine .place (hRS _ (List.mem_cons_self ..) _ (List.mem_cons_self ..) hec) (ih ?_)
    intro e he c hc
    exact hRS e (List.mem_cons_of_mem _ he) c (List.mem_cons_of_mem _ hc)
  | pass hd _ ih => exact .pass hd (ih fun e he c hc => hRS e he c (List.mem_cons_of_mem _ hc))

theorem congr (hRS : ∀ e ∈ p, ∀ c ∈ q, R e c ↔ S e c) : Layout R p q ↔ Layout S p q :=
  ⟨fun h => h.imp fun e he c hc => (hRS e he c hc).1, fun h => h.imp fun e he c hc => (hRS e he c hc).2⟩

/-- Elements may be replaced on both sides, as long as a recursive descent remains one. -/
theorem map {f g : Element → Element} (hf : ∀ e, (f e).isDescent = e.isDescent)
    (h : Layout (fun e c => R (f e) (g c)) p q) : Layout R (p.map f) (q.map g) := by
  induction h with
  | nil => exact .nil
  | place hec _ ih => exact .place hec ih
  | pass hd _ ih => exact .pass ((hf _).trans hd) ih

/-- Conversely, a layout of replaced elements is one of the elements themselves. -/
theorem of_map {f g : Element → Element} (hf : ∀ e, (f e).isDescent = e.isDescent)
    (h : Layout R (p.map f) (q.map g)) : Layout (fun e c => R (f e) (g c)) p q := by
  generalize hp : p.map f = p' at h
  generalize hq : q.map g = q' at h
  induction h generalizing p q with
  | nil =>
    rw [List.map_eq_nil_iff.1 hp, List.map_eq_nil_iff.1 hq]
    exact .nil
  | place hec _ ih =>
    obtain ⟨e, p, rfl, rfl, hp'⟩ := List.map_eq_cons_iff.1 hp
    obtain ⟨c, q, rfl, rfl, hq'⟩ := List.map_eq_cons_iff.1 hq
    exact .place hec (ih hp' hq')
  | pass hd _ ih =>
    obtain ⟨c, q, rfl, rfl, hq'⟩ := List.map_eq_cons_iff.1 hq
    have hl := ih hp hq'
    obtain ⟨e, p, rfl, rfl, -⟩ := List.map_eq_cons_iff.1 hp
    exact .pass ((hf e).symm.trans hd) hl

/-- A layout of a pattern along a second sequence and one of the second along a third give a layout of the pattern
along the third. An element that is passed over by the second layout in front of a recursive descent is passed over by
the composed one, because only a recursive descent is laid out on a recursive descent. -/
theorem comp (h : Layout R p q) (h' : Layout S q r)
    (hd : ∀ e d, R e d → d.isDescent = true → e.isDescent = true)
    (hRST : ∀ e ∈ p, ∀ d ∈ q, ∀ c ∈ r, R e d → S d c → T e c) : Layout T p r := by
  -- the outer induction is on the first layout, the inner ones on the second, which may pass over elements
  induction h generalizing r with
  | nil =>
    cases h'
    exact .nil
  | @place e d p q hed _ ih =>
    generalize hs : d :: q = s at h'
    induction h' with
    | nil => exact absurd hs (List.cons_ne_nil _ _)
    | @place d' c _ r hdc hl _ =>
      obtain ⟨rfl, rfl⟩ := List.cons.inj hs
      refine .place (hRST _ (List.mem_cons_self ..) _ (List.mem_cons_self ..) _ (List.mem_cons_self ..) hed hdc)
        (ih hl ?_)
      intro e' he' d' hd' c' hc'
      exact hRST e' (List.mem_cons_of_mem _ he') d' (List.mem_cons_of_mem _ hd') c' (List.mem_cons_of_mem _ hc')
    | pass hdd _ ihr =>
      obtain ⟨rfl, rfl⟩ := List.cons.inj hs
      -- `d` is a recursive descent, and so is `e`, which is laid out on it
      refine .pass (hd _ _ hed hdd) (ihr ?_ rfl)
      intro e' he' d' hd' c' hc'
      exact hRST e' he' d' hd' c' (List.mem_cons_of_mem _ hc')
  | @pass e d p q hde _ ih =>
    generalize hs : d :: q = s at h'
    induction h' with
    | nil => exact absurd hs (List.cons_ne_nil _ _)
    | place _ hl _ =>
      obtain ⟨rfl, rfl⟩ := List.cons.inj hs
      refine .pass hde (ih hl ?_)
      intro e' he' d' hd' c' hc'
      exact hRST e' he' d' (List.mem_cons_of_mem _ hd') c' (List.mem_cons_of_mem _ hc')
    | pass _ _ ihr =>
      obtain ⟨rfl, rfl⟩ := List.cons.inj hs
      refine .pass hde (ihr ?_ rfl)
      intro e' he' d' hd' c' hc'
      exact hRST e' he' d' hd' c' (List.mem_cons_of_mem _ hc')

/-- Without a recursive descent, the elements are paired one by one. -/
theorem iff_forall₂ (hp : ∀ e ∈ p, e.isDescent = false) : Layout R p q ↔ List.Forall₂ R p q := by
  constructor
  · intro h
    induction h with
    | nil => exact .nil
    | place hec _ ih => exact .cons hec (ih fun e he => hp e (List.mem_cons_of_mem _ he))
    | pass hd _ _ =>
      rw [hp _ (List.mem_cons_self ..)] at hd
      cases hd
  · intro h
    induction h with
    | nil => exact .nil
    | cons hec _ ih => exact .place hec (ih fun e he => hp e (List.mem_cons_of_mem _ he))

/-! ### Layouts of joined sequences -/

theorem append {p' q' : List Element} (h : Layout R p q) (h' : Layout R p' q') : Layout R (p ++ p') (q ++ q') := by
  induction h with
  | nil => exact h'
  | place hec _ ih => exact .place hec ih
  | pass hd _ ih => exact .pass hd ih

/-- The last elements are paired, and if that of the pattern is no recursive descent, those before are laid out. -/
private theorem of_append_singleton {e c : Element} (h : Layout R (p ++ [e]) (q ++ [c])) :
    R e c ∧ (e.isDescent = false → Layout R p q) := by
  generalize hp : p ++ [e] = p' at h
  generalize hq : q ++ [c] = q' at h
  induction h generalizing p q with
  | nil => exact absurd hp (by simp)
  | @place e₀ c₀ p₀ q₀ hec h ih =>
    cases p with
    | nil =>
      obtain ⟨rfl, rfl⟩ := List.cons.inj hp
      cases h
      cases q with
      | nil =>
        obtain ⟨rfl, -⟩ := List.cons.inj hq
        exact ⟨hec, fun _ => .nil⟩
      | cons d q => exact absurd (List.cons.inj hq).2 (by simp)
    | cons e₁ p =>
      obtain ⟨rfl, rfl⟩ := List.cons.inj hp
      cases q with
      | nil =>
        obtain ⟨rfl, rfl⟩ := List.cons.inj hq
        exact absurd rfl (h.ne_nil (by simp))
      | cons c₁ q =>
        obtain ⟨rfl, rfl⟩ := List.cons.inj hq
        obtain ⟨hlast, hrest⟩ := ih rfl rfl
        exact ⟨hlast, fun hd => .place hec (hrest hd)⟩
  | @pass e₀ c₀ p₀ q₀ hd₀ h ih =>
    cases q with
    | nil =>
      obtain ⟨rfl, rfl⟩ := List.cons.inj hq
      exact absurd rfl (h.ne_nil (by simp))
    | cons c₁ q =>
      obtain ⟨rfl, rfl⟩ := List.cons.inj hq
      obtain ⟨hlast, hrest⟩ := ih hp rfl
      refine ⟨hlast, fun hd => ?_⟩
      cases p with
      | nil =>
        obtain ⟨rfl, -⟩ := List.cons.inj hp
        rw [hd₀] at hd
        cases hd
      | cons e₁ p =>
        obtain ⟨rfl, -⟩ := List.cons.inj hp
        exact .pass hd₀ (hrest hd)

theorem last {e c : Element} (h : Layout R (p ++ [e]) (q ++ [c])) : R e c := (of_append_singleton h).1

theorem dropLast {e c : Element} (he : e.isDescent = false) (h : Layout R (p ++ [e]) (q ++ [c])) : Layout R p q :=
  (of_append_singleton h).2 he

/-- A recursive descent alone passes over everything in front of the last element. -/
theorem singleton {e c : Element} (he : e.isDescent = true) (h : R e c) (q : List Element) :
    Layout R [e] (q ++ [c]) := by
  induction q with
  | nil => exact .place h .nil
  | cons d q ih => exact .pass he ih

end Layout

namespace Sequence

theorem contains_cons_nil (e : Element) (p : List Element) : contains (e :: p) [] = .fails := by
  unfold contains; split <;> rfl

theorem contains_cons_cons {e : Element} (he : e.isDescent = false) (p : List Element) (c : Element)
    (q : List Element) : contains (e :: p) (c :: q) = (e.meets c).and (contains p q) := by
  rw [contains.eq_def]; simp only [he, Bool.false_eq_true, ↓reduceIte]

theorem contains_cons_of_isDescent {e : Element} (he : e.isDescent = true) (p q : List Element) :
    contains (e :: p) q = passingOver (fun c rest => (e.meets c).and (contains p rest)) q := by
  rw [contains.eq_def]; simp only [he, ↓reduceIte]

private theorem le_passingOver_iff {v : Verdict} (hv : v ≠ .fails) {e : Element} {p q : List Element}
    (he : e.isDescent = true) (ih : ∀ q, v ≤ contains p q ↔ Layout (fun e c => v ≤ e.meets c) p q) :
    v ≤ passingOver (fun c rest => (e.meets c).and (contains p rest)) q ↔
      Layout (fun e c => v ≤ e.meets c) (e :: p) q := by
  induction q with
  | nil =>
    constructor
    · intro h
      exact absurd (Verdict.le_fails.1 h) hv
    · intro h
      exact absurd rfl (h.ne_nil (List.cons_ne_nil _ _))
  | cons c q ihq =>
    rw [passingOver, Verdict.le_or_iff, Verdict.le_and_iff, ih, ihq]
    constructor
    · rintro (⟨hec, hl⟩ | hl)
      · exact .place hec hl
      · exact .pass he hl
    · intro h
      cases h with
      | place hec hl => exact .inl ⟨hec, hl⟩
      | pass _ hl => exact .inr hl

/-- The verdict on two sequences is at least `v` exactly when there is a layout all of whose pairs have a verdict of
at least `v`. -/
theorem le_contains_iff {v : Verdict} (hv : v ≠ .fails) {p q : List Element} :
    v ≤ contains p q ↔ Layout (fun e c => v ≤ e.meets c) p q := by
  induction p generalizing q with
  | nil =>
    rw [contains, Verdict.le_ofBool_iff hv, List.isEmpty_iff]
    constructor
    · rintro rfl
      exact .nil
    · intro h
      cases h
      rfl
  | cons e p ih =>
    cases he : e.isDescent with
    | true =>
      rw [contains_cons_of_isDescent he]
      exact le_passingOver_iff hv he fun q => ih
    | false =>
      cases q with
      | nil =>
        rw [contains_cons_nil, Verdict.le_fails]
        constructor
        · intro h
          exact absurd h hv
        · intro h
          exact absurd rfl (h.ne_nil (List.cons_ne_nil _ _))
      | cons c q =>
        rw [contains_cons_cons he, Verdict.le_and_iff, ih]
        constructor
        · rintro ⟨hec, hl⟩
          exact .place hec hl
        · intro h
          cases h with
          | place hec hl => exact ⟨hec, hl⟩
          | pass hd _ => rw [he] at hd; cases hd

theorem contains_eq_holds_iff {p q : List Element} :
    contains p q = .holds ↔ Layout (fun e c => e.meets c = .holds) p q := by
  rw [← Verdict.holds_le, le_contains_iff (by decide)]
  simp only [Verdict.holds_le]

theorem contains_ne_fails_iff {p q : List Element} :
    contains p q ≠ .fails ↔ Layout (fun e c => e.meets c ≠ .fails) p q := by
  rw [← Verdict.unknown_le, le_contains_iff (by decide)]
  simp only [Verdict.unknown_le]

end Sequence

end PathContainment
