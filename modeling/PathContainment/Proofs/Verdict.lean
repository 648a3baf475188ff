import Mathlib.Data.List.Forall2
import Mathlib.Order.MinMax
import PathContainment.Verdict

/-!
# The order of verdicts

Verdicts are linearly ordered by `fails < unknown < holds`. Conjunction is the minimum and disjunction the maximum of
two verdicts (`and_eq_min`, `or_eq_max`), so a verdict is at least `v` exactly when its parts are: `le_and_iff`,
`le_or_iff` and `le_anyOf_iff` are the rules by which the questions "does it hold" and "is it not refuted" are
followed through a computation, both at once.

`Decides v P` says that a verdict answers a question definitely and rightly.
-/

namespace PathContainment

namespace Verdict

/-- The place of a verdict in the order. -/
def rank : Verdict → Nat
  | fails => 0
  | unknown => 1
  | holds => 2

private theorem rank_injective : Function.Injective rank := by
  intro a b h
  cases a <;> cases b <;> first | rfl | exact absurd h (by decide)

instance : LinearOrder Verdict := LinearOrder.lift' rank rank_injective

theorem and_eq_min (a b : Verdict) : a.and b = min a b := by
  cases a <;> cases b <;> decide

theorem or_eq_max (a b : Verdict) : a.or b = max a b := by
  cases a <;> cases b <;> decide

theorem le_and_iff {v a b : Verdict} : v ≤ a.and b ↔ v ≤ a ∧ v ≤ b := by
  rw [and_eq_min]; exact le_min_iff

theorem le_or_iff {v a b : Verdict} : v ≤ a.or b ↔ v ≤ a ∨ v ≤ b := by
  rw [or_eq_max]; exact le_max_iff

theorem and_assoc (a b c : Verdict) : (a.and b).and c = a.and (b.and c) := by
  simp only [and_eq_min, min_assoc]

theorem and_or (a b c : Verdict) : a.and (b.or c) = (a.and b).or (a.and c) := by
  simp only [and_eq_min, or_eq_max, min_max_distrib_left]

theorem or_assoc (a b c : Verdict) : (a.or b).or c = a.or (b.or c) := by
  simp only [or_eq_max, max_assoc]

theorem or_left_comm (a b c : Verdict) : a.or (b.or c) = b.or (a.or c) := by
  simp only [or_eq_max, max_left_comm]

@[simp] theorem and_fails (a : Verdict) : a.and fails = fails := by cases a <;> rfl

@[simp] theorem fails_and (a : Verdict) : fails.and a = fails := rfl

@[simp] theorem holds_and (a : Verdict) : holds.and a = a := rfl

@[simp] theorem or_fails (a : Verdict) : a.or fails = a := by cases a <;> rfl

@[simp] theorem fails_or (a : Verdict) : fails.or a = a := rfl

/-! ### Bounds -/

theorem holds_le {v : Verdict} : holds ≤ v ↔ v = holds := by cases v <;> decide

theorem unknown_le {v : Verdict} : unknown ≤ v ↔ v ≠ fails := by cases v <;> decide

theorem fails_le {v : Verdict} : fails ≤ v := by cases v <;> decide

theorem le_fails {v : Verdict} : v ≤ fails ↔ v = fails := by cases v <;> decide

theorem eq_holds_or_eq_unknown {v : Verdict} (h : v ≠ fails) : v = holds ∨ v = unknown := by
  cases v with
  | fails => exact absurd rfl h
  | unknown => exact .inr rfl
  | holds => exact .inl rfl

@[simp] theorem ofBool_eq_holds {b : Bool} : ofBool b = holds ↔ b = true := by cases b <;> decide

@[simp] theorem ofBool_eq_fails {b : Bool} : ofBool b = fails ↔ b = false := by cases b <;> decide

@[simp] theorem ofBool_ne_unknown {b : Bool} : ofBool b ≠ unknown := by cases b <;> decide

theorem le_ofBool_iff {v : Verdict} (hv : v ≠ fails) {b : Bool} : v ≤ ofBool b ↔ b = true := by
  cases b with
  | false => exact ⟨fun h => absurd (le_fails.1 h) hv, fun h => absurd h (by decide)⟩
  | true => cases v <;> decide

/-! ### Alternatives -/

variable {α : Type u} {f : α → Verdict}

theorem le_anyOf_iff {v : Verdict} (hv : v ≠ fails) {l : List α} : v ≤ anyOf f l ↔ ∃ a ∈ l, v ≤ f a := by
  induction l with
  | nil => simpa [anyOf, le_fails] using hv
  | cons a l ih => rw [anyOf, le_or_iff, ih]; simp

theorem anyOf_eq_holds_iff {l : List α} : anyOf f l = holds ↔ ∃ a ∈ l, f a = holds := by
  have h := le_anyOf_iff (f := f) (v := holds) (by decide) (l := l)
  simpa only [holds_le] using h

theorem anyOf_eq_fails_iff {l : List α} : anyOf f l = fails ↔ ∀ a ∈ l, f a = fails := by
  have h := le_anyOf_iff (f := f) (v := unknown) (by decide) (l := l)
  simp only [unknown_le] at h
  rw [← not_iff_not, ← ne_eq, h]
  simp

theorem anyOf_eq_unknown_iff {l : List α} :
    anyOf f l = unknown ↔ (∀ a ∈ l, f a ≠ holds) ∧ ∃ a ∈ l, f a = unknown := by
  constructor
  · intro h
    have hne : ∀ a ∈ l, f a ≠ holds := by
      intro a ha hf
      rw [anyOf_eq_holds_iff.2 ⟨a, ha, hf⟩] at h
      cases h
    have hle : unknown ≤ anyOf f l := by rw [h]
    obtain ⟨a, ha, hf⟩ := (le_anyOf_iff (by decide)).1 hle
    exact ⟨hne, a, ha, (eq_holds_or_eq_unknown (unknown_le.1 hf)).resolve_left (hne a ha)⟩
  · rintro ⟨hne, a, ha, hf⟩
    refine (eq_holds_or_eq_unknown fun h => ?_).resolve_left fun h => ?_
    · rw [anyOf_eq_fails_iff.1 h a ha] at hf
      cases hf
    · obtain ⟨b, hb, hfb⟩ := anyOf_eq_holds_iff.1 h
      exact hne b hb hfb

/-- Alternatives each of which has a greater one among others. -/
theorem anyOf_le_anyOf {β : Type v} {g : β → Verdict} {l : List α} {l' : List β}
    (h : ∀ a ∈ l, ∃ b ∈ l', f a ≤ g b) : anyOf f l ≤ anyOf g l' := by
  by_cases hv : anyOf f l = fails
  · rw [hv]
    exact fails_le
  · obtain ⟨a, ha, hle⟩ := (le_anyOf_iff hv).1 (le_refl _)
    obtain ⟨b, hb, hab⟩ := h a ha
    exact (le_anyOf_iff hv).2 ⟨b, hb, hle.trans hab⟩

theorem anyOf_append (l l' : List α) : anyOf f (l ++ l') = (anyOf f l).or (anyOf f l') := by
  induction l with
  | nil => rfl
  | cons a l ih => rw [List.cons_append, anyOf, anyOf, ih, or_assoc]

theorem anyOf_congr {g : α → Verdict} {l : List α} (h : ∀ a ∈ l, f a = g a) : anyOf f l = anyOf g l := by
  induction l with
  | nil => rfl
  | cons a l ih =>
    rw [anyOf, anyOf, h a (List.mem_cons_self ..), ih fun b hb => h b (List.mem_cons_of_mem _ hb)]

theorem anyOf_congr_of_forall₂ {β : Type v} {R : α → β → Prop} {g : β → Verdict} {l : List α} {l' : List β}
    (h : List.Forall₂ R l l') (hfg : ∀ a b, R a b → f a = g b) : anyOf f l = anyOf g l' := by
  induction h with
  | nil => rfl
  | @cons a b l l' hab _ ih => rw [anyOf, anyOf, hfg a b hab, ih]

theorem anyOf_map {β : Type v} (g : β → α) (l : List β) : anyOf f (l.map g) = anyOf (fun b => f (g b)) l := by
  induction l with
  | nil => rfl
  | cons b l ih => rw [List.map_cons, anyOf, anyOf, ih]

theorem anyOf_flatMap {β : Type v} (g : β → List α) (l : List β) :
    anyOf f (l.flatMap g) = anyOf (fun b => anyOf f (g b)) l := by
  induction l with
  | nil => rfl
  | cons b l ih => rw [List.flatMap_cons, anyOf_append, anyOf, ih]

/-- A common part of all alternatives can be drawn out. -/
theorem and_anyOf (v : Verdict) (l : List α) : v.and (anyOf f l) = anyOf (fun a => v.and (f a)) l := by
  induction l with
  | nil => rw [anyOf, anyOf, and_fails]
  | cons a l ih => rw [anyOf, anyOf, and_or, ih]

/-- The order of the alternatives does not matter. -/
theorem anyOf_perm {l l' : List α} (h : l.Perm l') : anyOf f l = anyOf f l' := by
  induction h with
  | nil => rfl
  | cons a _ ih => rw [anyOf, anyOf, ih]
  | swap a b l => simp only [anyOf]; exact or_left_comm _ _ _
  | trans _ _ ih ih' => exact ih.trans ih'

/-- Alternatives that fail can be left out. -/
theorem anyOf_filter {p : α → Bool} {l : List α} (h : ∀ a ∈ l, p a = false → f a = fails) :
    anyOf f (l.filter p) = anyOf f l := by
  induction l with
  | nil => rfl
  | cons a l ih =>
    have hl := ih fun b hb => h b (List.mem_cons_of_mem _ hb)
    cases hp : p a with
    | true => rw [List.filter_cons_of_pos hp, anyOf, anyOf, hl]
    | false =>
      rw [List.filter_cons_of_neg (by simp [hp]), hl, anyOf, h a (List.mem_cons_self ..) hp, fails_or]

/-! ### Definite answers -/

/-- The verdict answers the question whether `P` definitely and rightly. -/
def Decides (v : Verdict) (P : Prop) : Prop := (v = holds ↔ P) ∧ (v = fails ↔ ¬P)

theorem decides_ofBool {b : Bool} {P : Prop} (h : b = true ↔ P) : Decides (ofBool b) P := by
  refine ⟨by rw [ofBool_eq_holds, h], ?_⟩
  rw [ofBool_eq_fails, ← h, Bool.not_eq_true]

theorem decides_holds {P : Prop} (h : P) : Decides holds P := ⟨by simpa using h, by simpa using h⟩

theorem decides_fails {P : Prop} (h : ¬P) : Decides fails P := ⟨by simpa using h, by simpa using h⟩

namespace Decides

variable {v w : Verdict} {P Q : Prop}

theorem congr (h : Decides v P) (hPQ : P ↔ Q) : Decides v Q := ⟨h.1.trans hPQ, h.2.trans (not_congr hPQ)⟩

/-- There is only one verdict that decides a question. -/
theorem unique (h : Decides v P) (h' : Decides w P) : v = w := by
  by_cases hP : P
  · rw [h.1.2 hP, h'.1.2 hP]
  · rw [h.2.2 hP, h'.2.2 hP]

theorem ne_unknown (h : Decides v P) : v ≠ unknown := by
  intro hv
  by_cases hP : P
  · rw [h.1.2 hP] at hv
    cases hv
  · rw [h.2.2 hP] at hv
    cases hv

end Decides

end Verdict

end PathContainment
