import Mathlib.Data.List.Basic
import Mathlib.Order.Fin.Basic
import PathContainment.Proofs.Sequence.Layout

/-!
# The verdict as the best one of all alignments

An alignment of a pattern with a candidate assigns a position of the candidate to each position of the pattern. It is
the same as a layout, with the positions written down: the pairs of an alignment are those of a layout and conversely
(`exists_alignment_iff_layout`). So the search through the candidate can be described without the search
(`contains_eq_best_alignment`): the containment holds exactly when it holds for all pairs of some alignment, and it
fails exactly when every alignment has a pair for which it fails.
-/

namespace PathContainment

/-- A strictly increasing map of the positions of a pattern to those of a candidate. It ends at the end of the
candidate, and it begins at its start and goes on without gaps except in front of recursive descent. -/
structure Alignment (pattern candidate : List Element) where
  place : Fin pattern.length → Fin candidate.length
  strictMono : StrictMono place
  last_eq : ∀ i, i.val + 1 = pattern.length → (place i).val + 1 = candidate.length
  first_eq : ∀ i, i.val = 0 → (pattern.get i).isDescent = false → (place i).val = 0
  next_eq : ∀ i j, j.val = i.val + 1 → (pattern.get j).isDescent = false → (place j).val = (place i).val + 1

namespace Alignment

variable {e c : Element} {p q : List Element}

/-- The verdict on the pair at a position of the pattern. A recursive descent is at its place there: its inner element
is compared, with the inner one of a recursive descent. -/
def verdict (a : Alignment p q) (i : Fin p.length) : Verdict :=
  match p.get i, q.get (a.place i) with
  | .descent inner, .descent other => inner.contains other
  | .descent inner, candidate => inner.contains candidate
  | pattern, candidate => pattern.contains candidate

/-- The search compares the pairs of an alignment as they are. -/
theorem meets_eq_verdict (a : Alignment p q) (i : Fin p.length) :
    (p.get i).meets (q.get (a.place i)) = a.verdict i := by
  unfold verdict
  cases p.get i with
  | descent inner => cases q.get (a.place i) <;> rfl
  | _ => rfl

/-! ### Alignments of longer candidates -/

/-- The alignment of a single element with a single element. -/
private def single (e c : Element) : Alignment [e] [c] where
  place i := i
  strictMono := strictMono_id
  last_eq _ h := h
  first_eq _ h _ := h
  next_eq _ _ h _ := h

/-- Passes over one more element in front of a recursive descent. -/
private def pass (a : Alignment (e :: p) q) (he : e.isDescent = true) (c : Element) : Alignment (e :: p) (c :: q) where
  place i := (a.place i).succ
  strictMono i j h := Fin.succ_lt_succ_iff.2 (a.strictMono h)
  last_eq i h := by
    have := a.last_eq i h
    rw [Fin.val_succ, List.length_cons]; omega
  first_eq i h hi := by
    obtain rfl : i = ⟨0, Nat.succ_pos _⟩ := Fin.ext h
    have he' : e.isDescent = false := hi
    rw [he] at he'; cases he'
  next_eq i j h hj := by
    have := a.next_eq i j h hj
    rw [Fin.val_succ, Fin.val_succ]; omega

/-- Puts a pair in front of an alignment. -/
private def cons (a : Alignment p q) (hp : p ≠ []) (e c : Element) : Alignment (e :: p) (c :: q) where
  place := Fin.cases ⟨0, Nat.succ_pos _⟩ fun i => (a.place i).succ
  strictMono i j h := by
    cases j using Fin.cases with
    | zero => exact absurd h (Fin.not_lt_zero i)
    | succ j =>
      cases i using Fin.cases with
      | zero => exact Fin.succ_pos _
      | succ i => exact Fin.succ_lt_succ_iff.2 (a.strictMono (Fin.succ_lt_succ_iff.1 h))
  last_eq i h := by
    cases i using Fin.cases with
    | zero =>
      have := List.length_pos_iff.2 hp
      simp only [Fin.val_zero, List.length_cons] at h; omega
    | succ i =>
      have := a.last_eq i (by simpa using h)
      simpa using this
  first_eq i h _ := by
    obtain rfl : i = ⟨0, Nat.succ_pos _⟩ := Fin.ext h
    rfl
  next_eq i j h hj := by
    cases j using Fin.cases with
    | zero => exact absurd h (Nat.succ_ne_zero _).symm
    | succ j =>
      cases i using Fin.cases with
      | zero =>
        have hj0 : j.val = 0 := by simpa using h
        have := a.first_eq j hj0 hj
        simp only [Fin.cases_succ, Fin.cases_zero, Fin.val_succ, this]
      | succ i =>
        have := a.next_eq i j (by simpa using h) hj
        simp only [Fin.cases_succ, Fin.val_succ, this]

/-! ### Alignments of shorter candidates -/

private theorem place_ne_zero (a : Alignment (e :: p) (c :: q)) (h : a.place ⟨0, Nat.succ_pos _⟩ ≠ 0)
    (i : Fin (e :: p).length) : a.place i ≠ 0 := by
  have hle : a.place ⟨0, Nat.succ_pos _⟩ ≤ a.place i := a.strictMono.monotone (Fin.zero_le i)
  intro hi
  rw [hi] at hle
  exact h (Fin.le_zero_iff.1 hle)

private theorem place_succ_ne_zero (a : Alignment (e :: p) (c :: q)) (i : Fin p.length) : a.place i.succ ≠ 0 :=
  Fin.ne_zero_of_lt (a.strictMono (Fin.succ_pos i))

/-- Without the first element of the candidate, when that is passed over. -/
private def unpass (a : Alignment (e :: p) (c :: q)) (h : a.place ⟨0, Nat.succ_pos _⟩ ≠ 0) : Alignment (e :: p) q :=
  have hne := a.place_ne_zero h
  { place := fun i => (a.place i).pred (hne i)
    strictMono := fun i j hij => Fin.pred_lt_pred_iff.2 (a.strictMono hij)
    last_eq := fun i hi => by
      have := a.last_eq i hi
      have := Fin.pos_iff_ne_zero.2 (hne i)
      rw [Fin.val_pred]
      simp only [List.length_cons] at *; omega
    first_eq := fun i hi he => absurd (Fin.ext (a.first_eq i hi he)) (hne i)
    next_eq := fun i j hij hj => by
      have := a.next_eq i j hij hj
      have : (a.place i).val ≠ 0 := fun h0 => hne i (Fin.ext h0)
      rw [Fin.val_pred, Fin.val_pred]; omega }

/-- Without the first pair, when that is made of the two first elements. -/
private def tail (a : Alignment (e :: p) (c :: q)) (h : a.place ⟨0, Nat.succ_pos _⟩ = 0) : Alignment p q :=
  have hne := a.place_succ_ne_zero
  { place := fun i => (a.place i.succ).pred (hne i)
    strictMono := fun i j hij => Fin.pred_lt_pred_iff.2 (a.strictMono (Fin.succ_lt_succ_iff.2 hij))
    last_eq := fun i hi => by
      have := a.last_eq i.succ (by rw [Fin.val_succ, List.length_cons, hi])
      have : (a.place i.succ).val ≠ 0 := fun h0 => hne i (Fin.ext h0)
      rw [Fin.val_pred]
      simp only [List.length_cons] at *; omega
    first_eq := fun i hi he => by
      have := a.next_eq ⟨0, Nat.succ_pos _⟩ i.succ (by rw [Fin.val_succ, hi]) he
      rw [h] at this
      rw [Fin.val_pred, this]; rfl
    next_eq := fun i j hij hj => by
      have := a.next_eq i.succ j.succ (by rw [Fin.val_succ, Fin.val_succ, hij]) hj
      have : (a.place i.succ).val ≠ 0 := fun h0 => hne i (Fin.ext h0)
      rw [Fin.val_pred, Fin.val_pred]; omega }

/-! ### Alignments are layouts -/

variable {R : Element → Element → Prop}

private theorem exists_of_layout (h : Layout R p q) (hp : p ≠ []) :
    ∃ a : Alignment p q, ∀ i, R (p.get i) (q.get (a.place i)) := by
  induction h with
  | nil => exact absurd rfl hp
  | @place e c p q hec hl ih =>
    by_cases hp' : p = []
    · subst hp'
      cases hl
      refine ⟨single e c, fun i => ?_⟩
      obtain rfl := Fin.fin_one_eq_zero i
      exact hec
    · obtain ⟨a, ha⟩ := ih hp'
      refine ⟨a.cons hp' e c, fun i => ?_⟩
      cases i using Fin.cases with
      | zero => exact hec
      | succ i => exact ha i
  | @pass e c p q he _ ih =>
    obtain ⟨a, ha⟩ := ih hp
    exact ⟨a.pass he c, ha⟩

private theorem layout_of_exists (a : Alignment (e :: p) q) (ha : ∀ i, R ((e :: p).get i) (q.get (a.place i))) :
    Layout R (e :: p) q := by
  -- the first element of the candidate is in the first pair, or it is passed over
  induction q generalizing e p with
  | nil => exact (a.place ⟨0, Nat.succ_pos _⟩).elim0
  | cons c q ih =>
    by_cases h : a.place ⟨0, Nat.succ_pos _⟩ = 0
    · have hec : R e c := by
        have := ha ⟨0, Nat.succ_pos _⟩
        rw [h] at this
        exact this
      cases p with
      | nil =>
        have := a.last_eq ⟨0, Nat.succ_pos _⟩ rfl
        rw [h] at this
        obtain rfl : q = [] := List.length_eq_zero_iff.1 (by simpa using this.symm)
        exact .place hec .nil
      | cons e' p =>
        refine .place hec (ih (a.tail h) fun i => ?_)
        have := ha i.succ
        rw [← Fin.succ_pred (a.place i.succ) (a.place_succ_ne_zero i)] at this
        exact this
    · have he : e.isDescent = true := by
        by_contra hd
        exact h (Fin.ext (a.first_eq ⟨0, Nat.succ_pos _⟩ rfl (Bool.eq_false_iff.2 hd)))
      refine .pass he (ih (a.unpass h) fun i => ?_)
      have := ha i
      rw [← Fin.succ_pred (a.place i) (a.place_ne_zero h i)] at this
      exact this

/-- A pattern that is not empty has an alignment with related pairs exactly when it has a layout with related pairs. -/
theorem exists_alignment_iff_layout :
    (∃ a : Alignment (e :: p) q, ∀ i, R ((e :: p).get i) (q.get (a.place i))) ↔ Layout R (e :: p) q :=
  ⟨fun ⟨a, ha⟩ => a.layout_of_exists ha, fun h => exists_of_layout h (List.cons_ne_nil _ _)⟩

end Alignment

namespace Sequence

/-- The containment of sequences is decided by the best alignment. The empty pattern contains the empty sequence
only. -/
theorem contains_eq_best_alignment (q : List Element) :
    contains [] q = .ofBool q.isEmpty ∧
    ∀ (e : Element) (p : List Element),
      (contains (e :: p) q = .holds ↔ ∃ a : Alignment (e :: p) q, ∀ i, a.verdict i = .holds) ∧
      (contains (e :: p) q = .fails ↔ ∀ a : Alignment (e :: p) q, ∃ i, a.verdict i = .fails) ∧
      (contains (e :: p) q = .unknown ↔
        (¬∃ a : Alignment (e :: p) q, ∀ i, a.verdict i = .holds) ∧
        ¬∀ a : Alignment (e :: p) q, ∃ i, a.verdict i = .fails) := by
  refine ⟨rfl, fun e p => ?_⟩
  have hholds : contains (e :: p) q = .holds ↔ ∃ a : Alignment (e :: p) q, ∀ i, a.verdict i = .holds := by
    rw [contains_eq_holds_iff, ← Alignment.exists_alignment_iff_layout]
    simp only [Alignment.meets_eq_verdict]
  have hfails : contains (e :: p) q = .fails ↔ ∀ a : Alignment (e :: p) q, ∃ i, a.verdict i = .fails := by
    rw [← not_iff_not, ← ne_eq, contains_ne_fails_iff, ← Alignment.exists_alignment_iff_layout]
    simp only [Alignment.meets_eq_verdict, not_forall, not_exists]
  refine ⟨hholds, hfails, ?_⟩
  rw [← hholds, ← hfails]
  cases contains (e :: p) q <;> decide

end Sequence

end PathContainment
