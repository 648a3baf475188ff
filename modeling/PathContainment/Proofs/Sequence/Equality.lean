import PathContainment.Path.Basic
import PathContainment.Proofs.Element.NormalForm
import PathContainment.Proofs.Sequence.Layout
import PathContainment.Proofs.Sequence.Meets

/-!
# Equality of sequences

Sequences are equal when their elements are, one by one. Equal sequences contain the same candidates, with the same
verdicts (`Sequence.contains_congr_left`), are contained in the same patterns (`Sequence.contains_congr_right`), and
have equal normal forms (`Sequence.normalForm_congr`); so it does not matter for an answer which one of equal patterns
gives it, nor which one of equal candidates it is asked for.
-/

namespace PathContainment

namespace Element

variable {e e' : Element}

theorem isDescent_congr (h : (e == e') = true) : e.isDescent = e'.isDescent := by
  rw [isDescent, kind_congr h, isDescent]

theorem underlying_congr (h : (e == e') = true) : (e.underlying == e'.underlying) = true := by
  cases e with
  | descent x =>
    cases e' with
    | descent y => exact h
    | _ => cases h
  | _ =>
    cases e' with
    | descent y => cases h
    | _ => exact h

theorem meets_congr_left (h : (e == e') = true) (c : Element) : e.meets c = e'.meets c := by
  cases he : e.isDescent with
  | true =>
    have he' : e'.isDescent = true := (isDescent_congr h).symm.trans he
    rw [meets_eq_contains_underlying fun _ => he, meets_eq_contains_underlying fun _ => he']
    exact contains_congr_left (underlying_congr h) _
  | false =>
    rw [meets_eq_contains he, meets_eq_contains ((isDescent_congr h).symm.trans he)]
    exact contains_congr_left h c

theorem meets_congr_right {c c' : Element} (h : (c == c') = true) (e : Element) : e.meets c = e.meets c' := by
  cases he : e.isDescent with
  | true =>
    rw [meets_eq_contains_underlying fun _ => he, meets_eq_contains_underlying fun _ => he]
    exact contains_congr_right (underlying_congr h) _
  | false =>
    rw [meets_eq_contains he, meets_eq_contains he]
    exact contains_congr_right h e

end Element

namespace Sequence

/-- Equal patterns contain the same candidates, with the same verdicts. -/
theorem contains_congr_left {p p' : List Element} (h : (p == p') = true) (q : List Element) :
    contains p q = contains p' q := by
  induction p' generalizing p q with
  | nil => rw [Element.eq_nil_of_beq_nil h]
  | cons e' l' ih =>
    obtain ⟨e, l, rfl, he, hl⟩ := Element.exists_cons_of_beq_cons h
    have hmeets : ∀ c, e.meets c = e'.meets c := Element.meets_congr_left he
    have hdescent := Element.isDescent_congr he
    cases hd : e'.isDescent with
    | true =>
      rw [contains_cons_of_isDescent (hdescent.trans hd), contains_cons_of_isDescent hd]
      congr 1
      funext c rest
      rw [hmeets, ih hl]
    | false =>
      cases q with
      | nil => rw [contains_cons_nil, contains_cons_nil]
      | cons c q => rw [contains_cons_cons (hdescent.trans hd), contains_cons_cons hd, hmeets, ih hl]

private theorem passingOver_congr {f : Element → List Element → Verdict} {q q' : List Element}
    (hf : ∀ c c' rest rest', (c == c') = true → (rest == rest') = true → f c rest = f c' rest')
    (h : (q == q') = true) : passingOver f q = passingOver f q' := by
  induction q' generalizing q with
  | nil => rw [Element.eq_nil_of_beq_nil h]
  | cons c' rest' ih =>
    obtain ⟨c, rest, rfl, hc, hrest⟩ := Element.exists_cons_of_beq_cons h
    rw [passingOver, passingOver, hf c c' rest rest' hc hrest, ih hrest]

/-- Equal candidates are contained in the same patterns, with the same verdicts. -/
theorem contains_congr_right {q q' : List Element} (h : (q == q') = true) (p : List Element) :
    contains p q = contains p q' := by
  induction p generalizing q q' with
  | nil =>
    cases q' with
    | nil => rw [Element.eq_nil_of_beq_nil h]
    | cons c' rest' =>
      obtain ⟨c, rest, rfl, -, -⟩ := Element.exists_cons_of_beq_cons h
      rfl
  | cons e p ih =>
    have hpair : ∀ c c' rest rest', (c == c') = true → (rest == rest') = true →
        (e.meets c).and (contains p rest) = (e.meets c').and (contains p rest') := by
      intro c c' rest rest' hc hrest
      rw [Element.meets_congr_right hc, ih hrest]
    cases hd : e.isDescent with
    | true =>
      rw [contains_cons_of_isDescent hd, contains_cons_of_isDescent hd]
      exact passingOver_congr hpair h
    | false =>
      cases q' with
      | nil => rw [Element.eq_nil_of_beq_nil h]
      | cons c' rest' =>
        obtain ⟨c, rest, rfl, hc, hrest⟩ := Element.exists_cons_of_beq_cons h
        rw [contains_cons_cons hd, contains_cons_cons hd]
        exact hpair c c' rest rest' hc hrest

theorem normalForm_congr {p p' : List Element} (h : (p == p') = true) : (normalForm p == normalForm p') = true := by
  induction p' generalizing p with
  | nil =>
    rw [Element.eq_nil_of_beq_nil h]
    rfl
  | cons e' l' ih =>
    obtain ⟨e, l, rfl, he, hl⟩ := Element.exists_cons_of_beq_cons h
    rw [normalForm, normalForm, List.map_cons, List.map_cons, List.cons_beq_cons, Bool.and_eq_true]
    exact ⟨Element.normalForm_congr he, ih hl⟩

end Sequence

namespace Path

variable {scope scope' : Scope} {p p' : Path scope}

theorem contains_congr_left (h : (p == p') = true) (q : Path scope') : p.contains q = p'.contains q :=
  Sequence.contains_congr_left h q.elements

theorem contains_congr_right {q q' : Path scope'} (h : (q == q') = true) (p : Path scope) :
    p.contains q = p.contains q' :=
  Sequence.contains_congr_right h p.elements

end Path

end PathContainment
