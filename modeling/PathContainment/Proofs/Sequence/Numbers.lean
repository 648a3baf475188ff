import PathContainment.Proofs.Except
import PathContainment.Proofs.Sequence.Entries
import PathContainment.Proofs.SortedSet

/-!
# Reading numbers between brackets

A colon between the brackets makes a slice, a comma a list, and what has neither is a single index. The elements that
are read in this way are those of the grammar (`ofNumbers_eq_ok_iff`): no number has a colon or a comma in it.
-/

namespace PathContainment.Sequence

open Grammar

variable {s : List Char} {e : Element}

/-! ### Numbers -/

theorem number_eq_ok_iff {i : Int64} : number s = .ok i ↔ Decimal.Number s i := by
  rw [← Decimal.word?_eq_some_iff]
  unfold number
  cases Decimal.word? s with
  | none => exact iff_of_false (fun h => by cases h) (fun h => by cases h)
  | some j => rw [Except.ok.injEq, Option.some.injEq]

theorem number?_eq_ok_iff {i : Option Int64} : number? s = .ok i ↔ Part s i := by
  unfold number?
  split
  · rename_i hs
    subst hs
    constructor
    · intro h
      cases h
      exact .absent
    · intro h
      cases h with
      | absent => rfl
      | given hs => exact absurd rfl hs.ne_nil
  · rename_i hs
    constructor
    · intro h
      obtain ⟨j, hj, h⟩ := bind_eq_ok_iff.1 h
      cases h
      exact .given (number_eq_ok_iff.1 hj)
    · intro h
      cases h with
      | absent => exact absurd rfl hs
      | given h => exact bind_eq_ok_iff.2 ⟨_, number_eq_ok_iff.2 h, rfl⟩

theorem checkIndex_eq_ok_iff {i : Int64} {n : Nat} : Element.checkIndex i = .ok n ↔ i.toInt = n := by
  have hzero : (0 : Int64).toInt = 0 := rfl
  unfold Element.checkIndex
  split
  · rename_i hi
    rw [Int64.lt_iff_toInt_lt] at hi
    exact iff_of_false (fun h => by cases h) (by omega)
  · rename_i hi
    rw [Int64.lt_iff_toInt_lt] at hi
    rw [Except.ok.injEq]
    omega

theorem mkIndex_eq_ok_iff {i : Int64} {e : Element} :
    Element.mkIndex i = .ok e ↔ ∃ n : Nat, i.toInt = n ∧ e = .index n := by
  constructor
  · intro h
    obtain ⟨n, hn, h⟩ := bind_eq_ok_iff.1 h
    cases h
    exact ⟨n, checkIndex_eq_ok_iff.1 hn, rfl⟩
  · rintro ⟨n, hn, rfl⟩
    exact bind_eq_ok_iff.2 ⟨n, checkIndex_eq_ok_iff.2 hn, rfl⟩

theorem mkSlice_eq_ok_iff {start stop : Option Int64} {step : Int64} {e : Element} :
    Element.mkSlice start stop step = .ok e ↔ ∃ h, e = .slice { start, stop, step, step_ne_zero := h } := by
  unfold Element.mkSlice Slice.make
  split
  · rename_i hstep
    exact iff_of_false (fun h => by cases h) (fun ⟨h, _⟩ => h hstep)
  · rename_i hstep
    constructor
    · intro h
      cases h
      exact ⟨hstep, rfl⟩
    · rintro ⟨_, rfl⟩
      rfl

theorem mkIndexes_eq_ok_iff {is : List Int64} {e : Element} :
    Element.mkIndexes is = .ok e ↔
      ∃ ns, List.Forall₂ (fun (i : Int64) (n : Nat) => i.toInt = n) is ns ∧ ns ≠ [] ∧
        e = .indexes (.ofList ns) := by
  have hcheck : ∀ ns, is.mapM Element.checkIndex = .ok ns ↔
      List.Forall₂ (fun (i : Int64) (n : Nat) => i.toInt = n) is ns := by
    intro ns
    simp only [mapM_eq_ok_iff, checkIndex_eq_ok_iff]
  constructor
  · intro h
    obtain ⟨ns, hns, h⟩ := bind_eq_ok_iff.1 h
    dsimp only at h
    split at h
    · cases h
    · rename_i hempty
      cases h
      rw [SortedSet.isEmpty_ofList, List.isEmpty_iff] at hempty
      exact ⟨ns, (hcheck ns).1 hns, hempty, rfl⟩
  · rintro ⟨ns, hns, hne, rfl⟩
    refine bind_eq_ok_iff.2 ⟨ns, (hcheck ns).2 hns, if_neg ?_⟩
    rw [SortedSet.isEmpty_ofList, List.isEmpty_iff]
    exact hne

/-! ### Entries that are numbers -/

private theorem isEntry_of_number {separator : Char} {i : Int64} (hsep : separator = ',' ∨ separator = ':')
    (h : Decimal.Number s i) : IsEntry separator s := by
  refine fun c hc => ⟨h.isBlank_eq_false c hc, ?_⟩
  rintro rfl
  rcases hsep with rfl | rfl <;> exact h.not_mem (by decide) (by decide) (by decide) hc

private theorem isEntry_of_index (s : List Char) (n : Nat) (h : Index s n) : IsEntry ',' s := by
  cases h with
  | mk hs => exact isEntry_of_number (.inl rfl) hs

private theorem isEntry_of_part (s : List Char) (i : Option Int64) (h : Part s i) : IsEntry ':' s := by
  cases h with
  | absent => exact fun c hc => by cases hc
  | given hs => exact isEntry_of_number (.inr rfl) hs

private theorem forall₂_index_iff {l : List (List Char)} {ns : List Nat} :
    List.Forall₂ Index l ns ↔
      ∃ is, l.mapM number = .ok is ∧ List.Forall₂ (fun (i : Int64) (n : Nat) => i.toInt = n) is ns := by
  simp only [mapM_eq_ok_iff, number_eq_ok_iff]
  constructor
  · intro h
    induction h with
    | nil => exact ⟨[], .nil, .nil⟩
    | cons hs _ ih =>
      obtain ⟨is, hl, hns⟩ := ih
      cases hs with
      | mk hs hi => exact ⟨_ :: is, .cons hs hl, .cons hi hns⟩
  · rintro ⟨is, hl, hns⟩
    induction hl generalizing ns with
    | nil =>
      cases hns
      exact .nil
    | cons hs _ ih =>
      cases hns with
      | cons hi hns => exact .cons (.mk hs hi) (ih hns)

private theorem nil_not_mem_of_forall₂ {l : List (List Char)} {ns : List Nat} (h : List.Forall₂ Index l ns) :
    [] ∉ l := by
  induction h with
  | nil => exact List.not_mem_nil
  | cons hs _ ih =>
    cases hs with
    | mk hs => exact List.not_mem_cons_of_ne_of_not_mem hs.ne_nil.symm ih

private theorem ofParts_eq_ok_iff {parts : List (List Char)} :
    ofParts parts = .ok e ↔
      (∃ start stop, List.Forall₂ Part parts [start, stop] ∧
        e = .slice { start, stop, step := 1, step_ne_zero := by decide }) ∨
      (∃ start stop step, ∃ h : step.getD 1 ≠ 0, List.Forall₂ Part parts [start, stop, step] ∧
        e = .slice { start, stop, step := step.getD 1, step_ne_zero := h }) := by
  constructor
  · intro h
    unfold ofParts at h
    split at h
    · obtain ⟨start, hstart, h⟩ := bind_eq_ok_iff.1 h
      obtain ⟨stop, hstop, h⟩ := bind_eq_ok_iff.1 h
      obtain ⟨_, rfl⟩ := mkSlice_eq_ok_iff.1 (admitted_eq_ok_iff.1 h)
      exact .inl ⟨start, stop, .cons (number?_eq_ok_iff.1 hstart) (.cons (number?_eq_ok_iff.1 hstop) .nil), rfl⟩
    · obtain ⟨start, hstart, h⟩ := bind_eq_ok_iff.1 h
      obtain ⟨stop, hstop, h⟩ := bind_eq_ok_iff.1 h
      obtain ⟨step, hstep, h⟩ := bind_eq_ok_iff.1 h
      obtain ⟨hne, rfl⟩ := mkSlice_eq_ok_iff.1 (admitted_eq_ok_iff.1 h)
      exact .inr ⟨start, stop, step, hne, .cons (number?_eq_ok_iff.1 hstart)
        (.cons (number?_eq_ok_iff.1 hstop) (.cons (number?_eq_ok_iff.1 hstep) .nil)), rfl⟩
    · cases h
  · rintro (⟨start, stop, hparts, rfl⟩ | ⟨start, stop, step, hne, hparts, rfl⟩)
    · obtain _ | ⟨hstart, _ | ⟨hstop, _ | _⟩⟩ := hparts
      refine bind_eq_ok_iff.2 ⟨start, number?_eq_ok_iff.2 hstart, ?_⟩
      refine bind_eq_ok_iff.2 ⟨stop, number?_eq_ok_iff.2 hstop, ?_⟩
      exact admitted_eq_ok_iff.2 (mkSlice_eq_ok_iff.2 ⟨_, rfl⟩)
    · obtain _ | ⟨hstart, _ | ⟨hstop, _ | ⟨hstep, _ | _⟩⟩⟩ := hparts
      refine bind_eq_ok_iff.2 ⟨start, number?_eq_ok_iff.2 hstart, ?_⟩
      refine bind_eq_ok_iff.2 ⟨stop, number?_eq_ok_iff.2 hstop, ?_⟩
      refine bind_eq_ok_iff.2 ⟨step, number?_eq_ok_iff.2 hstep, ?_⟩
      exact admitted_eq_ok_iff.2 (mkSlice_eq_ok_iff.2 ⟨hne, rfl⟩)

/-! ### What stands between brackets -/

private theorem listed_index_iff {ns : List Nat} :
    Listed Index ',' s ns ↔ List.Forall₂ Index (entries ',' s) ns :=
  listed_iff_forall₂_entries (by decide) isEntry_of_index

private theorem listed_part_iff {is : List (Option Int64)} :
    Listed Part ':' s is ↔ List.Forall₂ Part (entries ':' s) is :=
  listed_iff_forall₂_entries (by decide) isEntry_of_part

/-- The characters that make up numbers between brackets, apart from the separators and white space. -/
private theorem not_mem_of_index {c : Char} (hdigit : c.isDigit = false) (hplus : c ≠ '+') (hminus : c ≠ '-')
    (s : List Char) (n : Nat) (h : Index s n) : c ∉ s := by
  cases h with
  | mk hs => exact hs.not_mem hdigit hplus hminus

/-- Numbers between brackets are read as the grammar says. -/
theorem ofNumbers_eq_ok_iff : ofNumbers s = .ok e ↔ Numbers s e := by
  unfold ofNumbers
  constructor
  · intro h
    split at h
    · rcases ofParts_eq_ok_iff.1 h with ⟨start, stop, hs, rfl⟩ | ⟨start, stop, step, hne, hs, rfl⟩
      · exact .slice (listed_part_iff.2 hs)
      · exact .steppedSlice (listed_part_iff.2 hs) hne
    · split at h
      · rename_i hcomma
        split at h
        · cases h
        · obtain ⟨is, his, h⟩ := bind_eq_ok_iff.1 h
          obtain ⟨ns, hns, -, rfl⟩ := mkIndexes_eq_ok_iff.1 (admitted_eq_ok_iff.1 h)
          have hs := forall₂_index_iff.2 ⟨is, his, hns⟩
          exact .indexes (listed_index_iff.2 hs) (hs.length_eq ▸ two_le_length_entries hcomma)
      · obtain ⟨i, hi, h⟩ := bind_eq_ok_iff.1 h
        obtain ⟨n, hn, rfl⟩ := mkIndex_eq_ok_iff.1 (admitted_eq_ok_iff.1 h)
        exact .index (.mk (number_eq_ok_iff.1 hi) hn)
  · intro h
    cases h with
    | index hs =>
      rw [if_neg (not_mem_of_index (by decide) (by decide) (by decide) _ _ hs),
        if_neg (not_mem_of_index (by decide) (by decide) (by decide) _ _ hs)]
      cases hs with
      | mk hs hi =>
        exact bind_eq_ok_iff.2 ⟨_, number_eq_ok_iff.2 hs, admitted_eq_ok_iff.2 (mkIndex_eq_ok_iff.2 ⟨_, hi, rfl⟩)⟩
    | @indexes ns hs hns =>
      have hcolon : ':' ∉ s :=
        not_mem_of_listed (by decide) (by decide) (not_mem_of_index (by decide) (by decide) (by decide)) hs
      have hentries := listed_index_iff.1 hs
      obtain ⟨is, his, hvalues⟩ := forall₂_index_iff.1 hentries
      rw [if_neg hcolon, if_pos (separator_mem_of_listed hns hs), if_neg (nil_not_mem_of_forall₂ hentries)]
      have hne : ns ≠ [] := fun h => by rw [h] at hns; cases hns
      exact bind_eq_ok_iff.2 ⟨is, his, admitted_eq_ok_iff.2 (mkIndexes_eq_ok_iff.2 ⟨ns, hvalues, hne, rfl⟩)⟩
    | slice hs =>
      rw [if_pos (separator_mem_of_listed (by simp) hs)]
      exact ofParts_eq_ok_iff.2 (.inl ⟨_, _, listed_part_iff.1 hs, rfl⟩)
    | steppedSlice hs hstep =>
      rw [if_pos (separator_mem_of_listed (by simp) hs)]
      exact ofParts_eq_ok_iff.2 (.inr ⟨_, _, _, hstep, listed_part_iff.1 hs, rfl⟩)

/-! ### The characters around and in numbers -/

/-- White space around numbers is none of theirs. -/
theorem numbers_trim (h : Numbers s e) : Numbers (trim s) e := by
  cases h with
  | index hs =>
    obtain ⟨hs, hi⟩ := hs
    rw [trim_of_not_blank hs.isBlank_eq_false]
    exact .index (.mk hs hi)
  | indexes hs hns =>
    refine .indexes (listed_index_iff.2 ?_) hns
    rw [entries_trim (by decide)]
    exact listed_index_iff.1 hs
  | slice hs =>
    refine .slice (listed_part_iff.2 ?_)
    rw [entries_trim (by decide)]
    exact listed_part_iff.1 hs
  | steppedSlice hs hstep =>
    refine .steppedSlice (listed_part_iff.2 ?_) hstep
    rw [entries_trim (by decide)]
    exact listed_part_iff.1 hs

private theorem not_mem_of_part {c : Char} (hdigit : c.isDigit = false) (hplus : c ≠ '+') (hminus : c ≠ '-')
    (s : List Char) (i : Option Int64) (h : Part s i) : c ∉ s := by
  cases h with
  | absent => exact List.not_mem_nil
  | given hs => exact hs.not_mem hdigit hplus hminus

/-- The characters from which another content of brackets, or their end, is known. -/
theorem not_mem_of_numbers (h : Numbers s e) {c : Char} (hc : c ∈ ['*', '\'', '(', '?', ']']) : c ∉ s := by
  obtain ⟨hblank, hdigit, hplus, hminus, hcomma, hcolon⟩ : isBlank c = false ∧ c.isDigit = false ∧ c ≠ '+' ∧
      c ≠ '-' ∧ c ≠ ',' ∧ c ≠ ':' := by
    simp only [List.mem_cons, List.not_mem_nil, or_false] at hc
    rcases hc with rfl | rfl | rfl | rfl | rfl <;> decide
  cases h with
  | index hs => exact not_mem_of_index hdigit hplus hminus _ _ hs
  | indexes hs => exact not_mem_of_listed hblank hcomma (not_mem_of_index hdigit hplus hminus) hs
  | slice hs => exact not_mem_of_listed hblank hcolon (not_mem_of_part hdigit hplus hminus) hs
  | steppedSlice hs => exact not_mem_of_listed hblank hcolon (not_mem_of_part hdigit hplus hminus) hs

theorem exists_not_blank_of_numbers (h : Numbers s e) : ∃ c ∈ s, isBlank c = false := by
  cases h with
  | index hs =>
    obtain ⟨hs, -⟩ := hs
    obtain ⟨c, rest, rfl⟩ := List.exists_cons_of_ne_nil hs.ne_nil
    exact ⟨c, List.mem_cons_self, hs.isBlank_eq_false c List.mem_cons_self⟩
  | indexes hs hns => exact ⟨',', separator_mem_of_listed hns hs, by decide⟩
  | slice hs => exact ⟨':', separator_mem_of_listed (by simp) hs, by decide⟩
  | steppedSlice hs => exact ⟨':', separator_mem_of_listed (by simp) hs, by decide⟩

end PathContainment.Sequence
