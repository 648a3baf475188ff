import Mathlib.Data.List.Forall2
import PathContainment.Except

/-!
# Steps that may fail, one for each entry of a list

They succeed together exactly when each of them does, with one result for each entry and in the same order. Otherwise
the first one that fails tells why.
-/

namespace PathContainment

variable {α β ε : Type} {f : α → Except ε β} {l : List α}

theorem ok_bind (a : α) (f : α → Except ε β) : (Except.ok a >>= f) = f a := rfl

theorem bind_eq_error_iff {x : Except ε α} {g : α → Except ε β} {e : ε} :
    x >>= g = .error e ↔ x = .error e ∨ ∃ a, x = .ok a ∧ g a = .error e := by
  cases x <;> simp [bind, Except.bind]

theorem mapError_eq_ok_iff {ε' : Type} {g : ε → ε'} {x : Except ε α} {a : α} : x.mapError g = .ok a ↔ x = .ok a := by
  cases x <;> simp [Except.mapError]

theorem mapError_eq_error_iff {ε' : Type} {g : ε → ε'} {x : Except ε α} {e : ε'} :
    x.mapError g = .error e ↔ ∃ e', x = .error e' ∧ g e' = e := by
  cases x <;> simp [Except.mapError]

theorem mapM_eq_ok_iff {bs : List β} : l.mapM f = .ok bs ↔ List.Forall₂ (fun a b => f a = .ok b) l bs := by
  induction l generalizing bs with
  | nil =>
    rw [List.forall₂_nil_left_iff]
    exact ⟨fun h => by cases h; rfl, fun h => by rw [h]; rfl⟩
  | cons a l ih =>
    rw [List.mapM_cons, List.forall₂_cons_left_iff]
    constructor
    · intro h
      obtain ⟨b, hb, h⟩ := bind_eq_ok_iff.1 h
      obtain ⟨bs', hbs, h⟩ := bind_eq_ok_iff.1 h
      cases h
      exact ⟨b, bs', hb, ih.1 hbs, rfl⟩
    · rintro ⟨b, bs', hb, hbs, rfl⟩
      exact bind_eq_ok_iff.2 ⟨b, hb, bind_eq_ok_iff.2 ⟨bs', ih.2 hbs, rfl⟩⟩

theorem exists_mem_of_forall₂_left {R : α → β → Prop} {bs : List β} (h : List.Forall₂ R l bs) {a : α} (ha : a ∈ l) :
    ∃ b ∈ bs, R a b := by
  induction h with
  | nil => cases ha
  | cons hab _ ih =>
    rcases List.mem_cons.1 ha with rfl | ha
    · exact ⟨_, List.mem_cons_self .., hab⟩
    · exact (ih ha).imp fun _ hb => ⟨List.mem_cons_of_mem _ hb.1, hb.2⟩

theorem exists_mem_of_forall₂_right {R : α → β → Prop} {bs : List β} (h : List.Forall₂ R l bs) {b : β} (hb : b ∈ bs) :
    ∃ a ∈ l, R a b :=
  exists_mem_of_forall₂_left (R := flip R) h.flip hb

/-- An entry with a property, and those before it, in a list with a first entry. -/
theorem exists_split_cons_iff {a : α} {P : List α → α → Prop} :
    (∃ before x after, a :: l = before ++ x :: after ∧ P before x) ↔
      P [] a ∨ ∃ before x after, l = before ++ x :: after ∧ P (a :: before) x := by
  constructor
  · rintro ⟨before, x, after, hsplit, hp⟩
    cases before with
    | nil =>
      obtain ⟨rfl, -⟩ := List.cons.inj hsplit
      exact .inl hp
    | cons b before =>
      obtain ⟨rfl, hl⟩ := List.cons.inj hsplit
      exact .inr ⟨before, x, after, hl, hp⟩
  · rintro (hp | ⟨before, x, after, rfl, hp⟩)
    · exact ⟨[], a, l, rfl, hp⟩
    · exact ⟨a :: before, x, after, rfl, hp⟩

theorem mapM_eq_error_iff {e : ε} :
    l.mapM f = .error e ↔ ∃ before a after, l = before ++ a :: after ∧
      (∀ b ∈ before, ∃ y, f b = .ok y) ∧ f a = .error e := by
  induction l with
  | nil => simp [pure, Except.pure]
  | cons a l ih =>
    rw [exists_split_cons_iff, List.mapM_cons]
    cases ha : f a with
    | error e' =>
      -- nothing after the first entry is looked at
      show (Except.error e' : Except ε (List β)) = .error e ↔ _
      simp [ha]
    | ok b =>
      have hrest : (do let bs ← l.mapM f; return b :: bs) = .error e ↔ l.mapM f = .error e := by
        cases l.mapM f with
        | error e' => exact Iff.rfl
        | ok bs => exact iff_of_false (fun h => by cases h) (fun h => by cases h)
      simp only [List.forall_mem_cons, ha, reduceCtorEq, and_false, false_or, Except.ok.injEq, exists_eq', true_and]
      exact hrest.trans ih

end PathContainment
