import PathContainment.Element.NormalForm
import PathContainment.Except

/-!
# Admissible sequences of elements

A sequence of elements is a path when it is not empty, when the root stands nowhere but at its start, and when each
of its elements is admissible. `Sequence.check` finds the first fault from left to right; `Sequence.Valid` is the
condition itself, and `Sequence.check_eq_ok_iff` says that the two agree. The other lemmas say that the operations
on paths lead from valid sequences to valid ones.
-/

namespace PathContainment

namespace Sequence

/-- The first fault of the elements from a position on. -/
def checkFrom (position : Nat) : List Element → Except PathError Unit
  | [] => .ok ()
  | e :: rest =>
    if 0 < position ∧ e = .root then .error (.misplacedRoot position)
    else do e.check; checkFrom (position + 1) rest

/-- The first fault of a sequence. -/
def check (elements : List Element) : Except PathError Unit :=
  if elements.isEmpty then .error .empty else checkFrom 0 elements

/-- The sequence is a path. -/
structure Valid (elements : List Element) : Prop where
  ne_nil : elements ≠ []
  root_not_mem_tail : Element.root ∉ elements.tail
  valid_of_mem : ∀ e ∈ elements, e.Valid

/-- The sequence begins with the root. -/
def isAbsolute (elements : List Element) : Bool := elements.head? = some .root

def isStrict (elements : List Element) : Bool := elements.all Element.isStrict

def isNormal (elements : List Element) : Bool := elements.all Element.isNormal

def normalForm (elements : List Element) : List Element := elements.map Element.normalForm

/-! ### The check decides validity -/

private theorem checkFrom_eq_ok_iff {position : Nat} {elements : List Element} (hp : 0 < position) :
    checkFrom position elements = .ok () ↔ Element.root ∉ elements ∧ ∀ e ∈ elements, e.Valid := by
  induction elements generalizing position with
  | nil => simp [checkFrom]
  | cons e rest ih =>
    unfold checkFrom
    split
    · rename_i h; simp [h.2]
    · rename_i h
      have he : e ≠ .root := fun he => h ⟨hp, he⟩
      constructor
      · intro hc
        obtain ⟨⟨⟩, hv, hc⟩ := bind_eq_ok_iff.1 hc
        have := (ih (Nat.succ_pos _)).1 hc
        exact ⟨by simp [this.1, he.symm], by simpa [Element.Valid, hv] using this.2⟩
      · rintro ⟨hr, hv⟩
        have hc := (ih (Nat.succ_pos position)).2
          ⟨fun hm => hr (List.mem_cons_of_mem _ hm), fun e' hm => hv e' (List.mem_cons_of_mem _ hm)⟩
        have hve : e.check = .ok () := hv e (by simp)
        rw [hve]; exact hc

theorem check_eq_ok_iff {elements : List Element} : check elements = .ok () ↔ Valid elements := by
  cases elements with
  | nil => exact ⟨fun h => by simp [check] at h, fun h => absurd rfl h.ne_nil⟩
  | cons e rest =>
    simp only [check, List.isEmpty_cons, Bool.false_eq_true, if_false, checkFrom, Nat.lt_irrefl, false_and]
    constructor
    · intro h
      obtain ⟨⟨⟩, hv, hc⟩ := bind_eq_ok_iff.1 h
      have := (checkFrom_eq_ok_iff (Nat.succ_pos 0)).1 hc
      exact ⟨by simp, this.1, by simpa [Element.Valid, hv] using this.2⟩
    · rintro ⟨-, hr, hv⟩
      have hc := (checkFrom_eq_ok_iff (Nat.succ_pos 0)).2
        ⟨hr, fun e' hm => hv e' (List.mem_cons_of_mem _ hm)⟩
      have hve : e.check = .ok () := hv e (by simp)
      rw [hve]; exact hc

theorem Valid.of_check {elements : List Element} (h : check elements = .ok ()) : Valid elements :=
  check_eq_ok_iff.1 h

instance (elements : List Element) : Decidable (Valid elements) :=
  match h : check elements with
  | .ok () => isTrue (.of_check h)
  | .error _ => isFalse fun hv => by rw [check_eq_ok_iff.2 hv] at h; cases h

/-! ### Parts and joins of valid sequences -/

namespace Valid

theorem take {elements : List Element} (h : Valid elements) {n : Nat} (hn : 0 < n) : Valid (elements.take n) where
  ne_nil := by
    have := h.ne_nil
    cases elements <;> cases n <;> simp_all
  root_not_mem_tail hm := by
    refine h.root_not_mem_tail ?_
    cases elements with
    | nil => simp at hm
    | cons e rest =>
      cases n with
      | zero => simp at hm
      | succ n => exact List.mem_of_mem_take (by simpa using hm)
  valid_of_mem e he := h.valid_of_mem e (List.mem_of_mem_take he)

theorem drop {elements : List Element} (h : Valid elements) {n : Nat} (hn : n < elements.length) :
    Valid (elements.drop n) where
  ne_nil hd := by
    have := congrArg List.length hd
    simp at this; omega
  root_not_mem_tail hm := by
    refine h.root_not_mem_tail ?_
    rw [List.tail_drop, Nat.add_comm, ← List.drop_drop, List.drop_one] at hm
    exact List.mem_of_mem_drop hm
  valid_of_mem e he := h.valid_of_mem e (List.mem_of_mem_drop he)

theorem root_not_mem {elements : List Element} (h : Valid elements) (hr : isAbsolute elements = false) :
    Element.root ∉ elements := by
  have := h.root_not_mem_tail
  cases elements <;> simp_all [isAbsolute, eq_comm]

theorem append {elements rest : List Element} (h : Valid elements) (h' : Valid rest)
    (hr : isAbsolute rest = false) : Valid (elements ++ rest) where
  ne_nil := by simp [h.ne_nil]
  root_not_mem_tail hm := by
    rw [List.tail_append_of_ne_nil h.ne_nil, List.mem_append] at hm
    exact hm.elim h.root_not_mem_tail (h'.root_not_mem hr)
  valid_of_mem e he := (List.mem_append.1 he).elim (h.valid_of_mem e) (h'.valid_of_mem e)

theorem cons_root {elements : List Element} (h : Valid elements) (hr : isAbsolute elements = false) :
    Valid (.root :: elements) where
  ne_nil := by simp
  root_not_mem_tail := h.root_not_mem hr
  valid_of_mem e he := (List.mem_cons.1 he).elim (fun he => he ▸ rfl) (h.valid_of_mem e)

end Valid

end Sequence

/-! ### Normal forms are admissible -/

namespace Element

private theorem kind_of_reduced {s : Slice} {e : Element} (h : s.reduced? = some e) :
    e.kind ∈ [Kind.slice, .index, .anyIndex] ∧ e.Valid := by
  rcases Option.or_eq_some_iff.1 h with h | ⟨-, h⟩
  · obtain ⟨r, -, h⟩ := Option.bind_eq_some_iff.1 h
    unfold Slice.ofRange? at h
    split at h
    · split at h <;> cases h
      exact ⟨by decide, rfl⟩
    · cases h; exact ⟨by simp [kind], rfl⟩
    · split at h <;> cases h
      exact ⟨by decide, rfl⟩
  · unfold Slice.withoutStart? at h
    split at h <;> cases h
    exact ⟨by simp [kind], rfl⟩

private theorem kind_normalForm_slice (s : Slice) :
    (slice s).normalForm.kind ∈ [Kind.slice, .index, .anyIndex] ∧ (slice s).normalForm.Valid := by
  unfold normalForm
  cases h : s.reduced? with
  | none => exact ⟨by simp [kind], rfl⟩
  | some e => exact kind_of_reduced h

private theorem kind_normalForm_indexes {is : SortedSet Nat} (h : (indexes is).Valid) :
    (indexes is).normalForm.kind ∈ [Kind.indexes, .slice, .index] ∧ (indexes is).normalForm.Valid := by
  unfold normalForm
  split
  · exact ⟨by simp [kind], rfl⟩
  · cases Slice.ofEvenlySpaced? is.toList with
    | none => exact ⟨by simp [kind], h⟩
    | some s => exact ⟨by simp [kind], rfl⟩

private theorem kind_normalForm_properties {names : SortedSet String} (h : (properties names).Valid) :
    (properties names).normalForm.kind ∈ [Kind.properties, .property] ∧ (properties names).normalForm.Valid := by
  unfold normalForm
  split
  · rename_i name heq
    refine ⟨by simp [kind], ?_⟩
    unfold SortedSet.only? at heq
    split at heq
    · rename_i hl
      cases heq
      simp only [Valid, check, checkNames, SortedSet.isEmpty, hl, List.isEmpty_cons, Bool.false_eq_true,
        if_false] at h
      obtain ⟨⟨⟩, hn, -⟩ := bind_eq_ok_iff.1 h
      exact hn
    · cases heq
  · exact ⟨by simp [kind], h⟩

/-- The normal form of an element that is not the root nor a recursive descent is neither of them. -/
private theorem checkDescent_normalForm {e : Element} (h : e.Valid) (hd : checkDescent e = .ok ()) :
    checkDescent e.normalForm = .ok () := by
  cases e with
  | root => exact hd
  | descent inner => cases hd
  | properties names =>
    have := (kind_normalForm_properties h).1
    generalize (properties names).normalForm = e at *
    cases e <;> first | rfl | simp [kind] at this
  | indexes is =>
    have := (kind_normalForm_indexes h).1
    generalize (indexes is).normalForm = e at *
    cases e <;> first | rfl | simp [kind] at this
  | slice s =>
    have := (kind_normalForm_slice s).1
    generalize (slice s).normalForm = e at *
    cases e <;> first | rfl | simp [kind] at this
  | _ => rfl

/-- Normal forms are admissible. -/
theorem Valid.normalForm {e : Element} (h : e.Valid) : e.normalForm.Valid := by
  induction e with
  | properties names => exact (kind_normalForm_properties h).2
  | indexes is => exact (kind_normalForm_indexes h).2
  | slice s => exact (kind_normalForm_slice s).2
  | descent inner ih =>
    unfold Valid check at h
    obtain ⟨⟨⟩, hd, hi⟩ := bind_eq_ok_iff.1 h
    unfold Element.normalForm Valid check
    rw [checkDescent_normalForm hi hd]
    exact ih hi
  | _ => exact h

/-- Only the root has the root as its normal form. -/
theorem normalForm_eq_root {e : Element} (h : e.Valid) : e.normalForm = root ↔ e = root := by
  cases e with
  | properties names =>
    have := (kind_normalForm_properties h).1
    generalize (properties names).normalForm = e at *
    cases e <;> simp_all [kind]
  | indexes is =>
    have := (kind_normalForm_indexes h).1
    generalize (indexes is).normalForm = e at *
    cases e <;> simp_all [kind]
  | slice s =>
    have := (kind_normalForm_slice s).1
    generalize (slice s).normalForm = e at *
    cases e <;> simp_all [kind]
  | _ => simp [Element.normalForm]

end Element

namespace Sequence

theorem isAbsolute_normalForm {elements : List Element} (h : Valid elements) :
    isAbsolute (normalForm elements) = isAbsolute elements := by
  cases elements with
  | nil => rfl
  | cons e rest =>
    simp [isAbsolute, normalForm, Element.normalForm_eq_root (h.valid_of_mem e (by simp))]

theorem Valid.normalForm {elements : List Element} (h : Valid elements) : Valid (normalForm elements) where
  ne_nil := by simpa [Sequence.normalForm] using h.ne_nil
  root_not_mem_tail hm := by
    rw [Sequence.normalForm, ← List.map_tail] at hm
    obtain ⟨e, he, heq⟩ := List.mem_map.1 hm
    have hv := h.valid_of_mem e (List.mem_of_mem_tail he)
    exact h.root_not_mem_tail ((Element.normalForm_eq_root hv).1 heq ▸ he)
  valid_of_mem e he := by
    obtain ⟨e', he', rfl⟩ := List.mem_map.1 he
    exact (h.valid_of_mem e' he').normalForm

end Sequence

end PathContainment
