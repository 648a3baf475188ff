import Mathlib.Algebra.Group.Nat.Defs
import PathContainment.Proofs.Element.Strict

/-!
# Elements and the children they describe

A child is a property or an index, and the children of an element are those that it contains. An element that has all
children of another one contains it (`contains_of_children`). There is one reservation. A slice without end is taken to
be infinite, although no array has indexes above the largest one; so it must not be the case that only this bound makes
a finite set of indexes enough, or hides that two slices differ (`LeavesRoom`).

Single children and the wildcards have a child that stands for all others, given finitely many elements that are asked
about (`exists_generic_child`). Lists and slices do not: each of their children may lie in another element.
-/

namespace PathContainment

namespace IndexRange

variable {r : IndexRange}

/-- The first index of a range that is not empty. -/
theorem exists_mem (hr : r.count ≠ some 0) : ∃ i : Nat, r.Mem i ∧ (i : Int) = r.first := by
  cases hn : r.count with
  | none =>
    have hf := first_of_pos (r.ascending_of_open (count_eq_none_iff.1 hn))
    exact ⟨r.left, (mem_iff_of_count_eq_none hn).2 ⟨0, by omega⟩, hf.symm⟩
  | some n =>
    have hpos : 0 < n := Nat.pos_of_ne_zero fun h => hr (by rw [hn, h])
    obtain ⟨i, hi, heq⟩ := exists_mem_of_lt_count hn hpos
    exact ⟨i, hi, by omega⟩

/-- A range without end that has the first two indexes of another one has all its indexes. -/
theorem mem_of_two_mem {r' : IndexRange} (hr : r.count = none) (hr' : r'.count = none) {i j : Nat}
    (hi : (i : Int) = r'.first) (hj : (j : Int) = r'.first + r'.step) (hmi : r.Mem i) (hmj : r.Mem j) :
    ∀ k, r'.Mem k → r.Mem k := by
  intro k hk
  obtain ⟨n, hn⟩ := (mem_iff_of_count_eq_none hr').1 hk
  have hopen := count_eq_none_iff.1 hr
  have hup := r'.ascending_of_open (count_eq_none_iff.1 hr')
  have hstep : r.step ∣ r'.step := by
    have hdvd := Int.dvd_sub hmj.2 hmi.2
    have heq : (j : Int) - r.first - (i - r.first) = r'.step := by omega
    rwa [heq] at hdvd
  have hnonneg : 0 ≤ n * r'.step := Int.mul_nonneg (by omega) (by omega)
  refine ⟨inWindow_iff.2 ⟨?_, fun right hright => by rw [hopen] at hright; cases hright⟩, ?_⟩
  · have hleft := (inWindow_iff.1 hmi.1).1
    omega
  · have heq : (k : Int) - r.first = (i - r.first) + n * r'.step := by omega
    rw [heq]
    exact Int.dvd_add hmi.2 (Int.dvd_mul_of_dvd_right hstep)

end IndexRange

namespace Slice

variable {s : Slice} {r : IndexRange}

/-- The indexes of a slice with an end are in reach. -/
theorem le_of_mem (hr : s.range = some r) {right : Int} (hright : r.right = some right) {i : Nat} (hi : r.Mem i) :
    i ≤ maxIndex := by
  have hle := (IndexRange.inWindow_iff.1 hi.1).2 right hright
  have hbound := (IndexRange.ofBounds_bounds (ofBounds_of_range hr)).2 right hright
  omega

end Slice

namespace Element

variable {e c m : Element}

/-! ### Children -/

/-- If the element is a single index, this is an unsigned 64-bit integer, but perhaps none that an array can have. -/
def IsWord : Element → Prop
  | index i => i < 2 ^ 64
  | _ => True

/-- The element is a single property or a single index. -/
structure IsChild (m : Element) : Prop where
  isConcrete : m.IsConcrete
  isWord : m.IsWord
  valid : m.Valid
  ne_root : m ≠ .root

theorem isChild_property {name : String} (h : (property name).Valid) : (property name).IsChild :=
  ⟨trivial, trivial, h, fun h => by cases h⟩

theorem isChild_index {i : Nat} (h : i ≤ maxIndex) : (index i).IsChild :=
  ⟨trivial, Nat.lt_of_le_of_lt h (by decide), rfl, fun h => by cases h⟩

theorem isChild_index_succ : (index (maxIndex + 1)).IsChild :=
  ⟨trivial, (by decide : maxIndex + 1 < 2 ^ 64), rfl, fun h => by cases h⟩

theorem IsChild.cases (h : m.IsChild) : (∃ name, m = property name ∧ (property name).Valid) ∨ ∃ i, m = index i := by
  obtain ⟨hconcrete, -, hv, hroot⟩ := h
  obtain rfl | ⟨name, rfl⟩ | ⟨i, rfl⟩ := hconcrete.cases
  · exact absurd rfl hroot
  · exact .inl ⟨name, rfl, hv⟩
  · exact .inr ⟨i, rfl⟩

theorem IsChild.isDescent (h : m.IsChild) : m.isDescent = false := h.isConcrete.isDescent

/-- The children of the element are known, and there is one at least. -/
def HasKnownChildren : Element → Prop
  | expression _ | filter _ => False
  | slice s => ∃ r, s.range = some r ∧ r.count ≠ some 0
  | descent inner => inner.HasKnownChildren
  | _ => True

theorem HasKnownChildren.underlying (h : c.HasKnownChildren) : c.underlying.HasKnownChildren := by
  cases c <;> exact h

/-- The element is not the root, its children are known, and its indexes are in reach. -/
structure Regular (c : Element) : Prop where
  ne_root : c ≠ .root
  valid : c.Valid
  inReach : c.InReach
  hasKnownChildren : c.HasKnownChildren

theorem Regular.underlying (h : c.Regular) : c.underlying.Regular where
  ne_root := by
    obtain ⟨hroot, hv, -, -⟩ := h
    cases c with
    | descent inner => exact (valid_descent_iff.1 hv).1
    | _ => exact hroot
  valid := h.valid.underlying.1
  inReach := h.inReach.underlying
  hasKnownChildren := h.hasKnownChildren.underlying

theorem nameSet?_or_indexSet? (h : c.Regular) (hd : c.isDescent = false) :
    (∃ B, c.nameSet? = some B) ∨ ∃ B, c.indexSet? = some B := by
  obtain ⟨hroot, -, -, hk⟩ := h
  cases c with
  | root => exact absurd rfl hroot
  | property | anyProperty | properties => exact .inl ⟨_, rfl⟩
  | index | anyIndex | indexes => exact .inr ⟨_, rfl⟩
  | slice s =>
    obtain ⟨r, hr, -⟩ := hk
    exact .inr ⟨r.Mem, by rw [indexSet?, hr]; rfl⟩
  | expression | filter => exact absurd hk id
  | descent => cases hd

/-- An element with a property as a child describes names. -/
theorem exists_nameSet?_of_contains (hd : e.isDescent = false) {name : String} (hv : (property name).Valid)
    (h : e.contains (property name) = .holds) : ∃ A, e.nameSet? = some A ∧ A name := by
  rcases contains_eq_holds_cases hd h with ⟨_, _, _, hB⟩ | ⟨A, B, hA, hB⟩ | ⟨-, -, hB⟩ | ⟨-, hk, -⟩ | ⟨-, hk⟩
  · cases hB
  · have hB : (property name).nameSet? = some (· = name) := rfl
    exact ⟨A, hA, (contains_decides_names hA hB hv).1.1 h name rfl⟩
  · cases hB
  · simp [kind] at hk
  · cases hk

/-- An element with an index as a child describes indexes. -/
theorem exists_indexSet?_of_contains (hd : e.isDescent = false) {i : Nat} (h : e.contains (index i) = .holds) :
    ∃ A, e.indexSet? = some A ∧ A i := by
  rcases contains_eq_holds_cases hd h with ⟨A, _, hA, -⟩ | ⟨_, _, _, hB⟩ | ⟨-, hB, -⟩ | ⟨-, hk, -⟩ | ⟨-, hk⟩
  · refine ⟨A, hA, ?_⟩
    obtain ⟨j, rfl, rfl⟩ | ⟨rfl, rfl⟩ | ⟨js, rfl, rfl⟩ | ⟨s, r, rfl, hr, rfl⟩ := indexSet?_cases hA
    · rw [contains, Verdict.ofBool_eq_holds, decide_eq_true_eq] at h
      exact h.symm
    · trivial
    · rw [contains, Verdict.ofBool_eq_holds, SortedSet.contains_iff] at h
      exact h
    · simp only [contains, Slice.containsIndex, hr, Option.map_some, Verdict.ofOption, Verdict.ofBool_eq_holds,
        IndexRange.containsIndex_iff] at h
      exact h.2
  · cases hB
  · cases hB
  · simp [kind] at hk
  · cases hk

/-- No element has both properties and indexes as children. -/
theorem not_contains_both (hd : e.isDescent = false) {name : String} (hv : (property name).Valid) {i : Nat}
    (hname : e.contains (property name) = .holds) (hindex : e.contains (index i) = .holds) : False := by
  obtain ⟨A, hA, -⟩ := exists_nameSet?_of_contains hd hv hname
  obtain ⟨B, hB, -⟩ := exists_indexSet?_of_contains hd hindex
  obtain ⟨n, rfl, -⟩ | ⟨rfl, -⟩ | ⟨ns, rfl, -⟩ := nameSet?_cases hA <;> cases hB

/-! ### Finite and infinite sets -/

/-- An element that describes indexes describes finitely many, all of them, or those of a slice without end. -/
theorem indexSet?_finite_or {A : Nat → Prop} (h : e.indexSet? = some A) :
    (∃ bound, ∀ i, A i → i ≤ bound) ∨ (∀ i, A i) ∨
      ∃ s r, e = slice s ∧ s.range = some r ∧ r.count = none ∧ A = r.Mem := by
  obtain ⟨i, rfl, rfl⟩ | ⟨rfl, rfl⟩ | ⟨is, rfl, rfl⟩ | ⟨s, r, rfl, hr, rfl⟩ := indexSet?_cases h
  · exact .inl ⟨i, fun j hj => Nat.le_of_eq hj⟩
  · exact .inr (.inl fun _ => trivial)
  · exact .inl (exists_bound (fun i : Nat => i) is.toList)
  · cases hn : r.count with
    | none => exact .inr (.inr ⟨s, r, rfl, hr, hn, rfl⟩)
    | some n =>
      obtain ⟨right, hright⟩ := IndexRange.exists_right_of_count hn
      exact .inl ⟨maxIndex, fun i hi => Slice.le_of_mem hr hright hi⟩

/-- An element that describes names describes finitely many or all of them. -/
theorem nameSet?_finite_or {A : String → Prop} (h : e.nameSet? = some A) :
    (∃ l : List String, ∀ name, A name → name ∈ l) ∨ ∀ name, A name := by
  obtain ⟨name, rfl, rfl⟩ | ⟨rfl, rfl⟩ | ⟨names, rfl, rfl⟩ := nameSet?_cases h
  · exact .inl ⟨[name], fun _ h => List.mem_singleton.2 h⟩
  · exact .inr fun _ => trivial
  · exact .inl ⟨names.toList, fun _ h => h⟩

/-- A slice has no index above the largest one as a child. -/
theorem le_of_slice_contains {s : Slice} {i : Nat} (h : (slice s).contains (index i) = .holds) : i ≤ maxIndex := by
  rw [contains, Slice.containsIndex] at h
  cases hr : s.range with
  | none =>
    rw [hr] at h
    cases h
  | some r =>
    rw [hr] at h
    exact (IndexRange.containsIndex_iff.1 (Verdict.ofBool_eq_holds.1 h)).1

/-- Only the wildcard has an index above the largest one as a child. -/
theorem eq_anyIndex_of_contains (hd : e.isDescent = false) (hr : e.InReach) {i : Nat} (hi : maxIndex < i)
    (h : e.contains (index i) = .holds) : e = anyIndex := by
  obtain ⟨A, hA, hAi⟩ := exists_indexSet?_of_contains hd h
  obtain ⟨j, rfl, rfl⟩ | ⟨rfl, -⟩ | ⟨is, rfl, rfl⟩ | ⟨s, r, rfl, -⟩ := indexSet?_cases hA
  · have hle : i ≤ maxIndex := Nat.le_trans (Nat.le_of_eq hAi) hr
    omega
  · rfl
  · have hle := hr i hAi
    omega
  · have hle := le_of_slice_contains h
    omega

/-- If the candidate is a slice without end, then the largest index is of no importance for its containment in the
pattern: the slice has two indexes in reach, and if the pattern has finitely many indexes, then the slice has another
one in reach. -/
def LeavesRoom (e c : Element) : Prop :=
  ∀ s r, c.underlying = slice s → s.range = some r → r.count = none →
    r.first + r.step ≤ maxIndex ∧
    ∀ A bound, e.underlying.indexSet? = some A → (∀ i, A i → i ≤ bound) → ∃ i ≤ maxIndex, r.Mem i ∧ ¬A i

/-! ### Containment of all children -/

/-- Every child of the candidate is a child of the pattern. -/
def ContainsChildren (e c : Element) : Prop := ∀ m : Element, m.IsChild → c.contains m = .holds → e.contains m = .holds

private theorem contains_property_of_nameSet? {B : String → Prop} (hB : c.nameSet? = some B) {name : String}
    (hv : (property name).Valid) (hname : B name) : c.contains (property name) = .holds := by
  have hproperty : (property name).nameSet? = some (· = name) := rfl
  exact (contains_decides_names hB hproperty hv).1.2 fun n hn => hn ▸ hname

private theorem nameSet?_of_child (hd : e.isDescent = false) {A : String → Prop} (hA : e.nameSet? = some A)
    {name : String} (hv : (property name).Valid) (h : e.contains (property name) = .holds) : A name := by
  obtain ⟨A', hA', hname⟩ := exists_nameSet?_of_contains hd hv h
  rw [hA] at hA'
  cases hA'
  exact hname

private theorem indexSet?_of_child (hd : e.isDescent = false) {A : Nat → Prop} (hA : e.indexSet? = some A) {i : Nat}
    (h : e.contains (index i) = .holds) : A i := by
  obtain ⟨A', hA', hi⟩ := exists_indexSet?_of_contains hd h
  rw [hA] at hA'
  cases hA'
  exact hi

private theorem valid_property_of_mem {names : SortedSet String} (hv : (properties names).Valid) {name : String}
    (h : name ∈ names.toList) : (property name).Valid :=
  checkName_eq_ok_iff.2 (quote_not_mem_of_valid hv name h)

private theorem exists_property {B : String → Prop} (hB : c.nameSet? = some B) (hv : c.Valid) :
    ∃ name, B name ∧ (property name).Valid := by
  obtain ⟨name, rfl, rfl⟩ | ⟨rfl, rfl⟩ | ⟨names, rfl, rfl⟩ := nameSet?_cases hB
  · exact ⟨name, rfl, hv⟩
  · obtain ⟨name, -, hname⟩ := exists_new_name []
    exact ⟨name, trivial, hname⟩
  · obtain ⟨name, hname⟩ := List.exists_mem_of_ne_nil _ (ne_nil_of_valid_properties hv)
    exact ⟨name, hname, valid_property_of_mem hv hname⟩

private theorem contains_names (hd : e.isDescent = false) {B : String → Prop} (hB : c.nameSet? = some B)
    (hv : c.Valid) (h : e.ContainsChildren c) : e.contains c = .holds := by
  have hchild : ∀ name, (property name).Valid → B name → e.contains (property name) = .holds := fun name hname hn =>
    h _ (isChild_property hname) (contains_property_of_nameSet? hB hname hn)
  obtain ⟨first, hfirst, hvfirst⟩ := exists_property hB hv
  obtain ⟨A, hA, -⟩ := exists_nameSet?_of_contains hd hvfirst (hchild first hvfirst hfirst)
  have hsub : ∀ name, (property name).Valid → B name → A name := fun name hname hn =>
    nameSet?_of_child hd hA hname (hchild name hname hn)
  refine (contains_decides_names hA hB hv).1.2 ?_
  obtain ⟨name, rfl, rfl⟩ | ⟨rfl, rfl⟩ | ⟨names, rfl, rfl⟩ := nameSet?_cases hB
  · rintro _ rfl
    exact hsub _ hv rfl
  · rcases nameSet?_finite_or hA with ⟨l, hl⟩ | hall
    · obtain ⟨name, hname, hvname⟩ := exists_new_name l
      exact absurd (hl name (hsub name hvname trivial)) hname
    · exact fun name _ => hall name
  · exact fun name hname => hsub name (valid_property_of_mem hv hname) hname

private theorem contains_anyIndex (hd : e.isDescent = false) (hr : e.InReach) (h : e.ContainsChildren anyIndex) :
    e.contains anyIndex = .holds := by
  rw [eq_anyIndex_of_contains hd hr (Nat.lt_succ_self _) (h _ isChild_index_succ rfl)]
  rfl

private theorem contains_slice (hd : e.isDescent = false) {t : Slice} {r : IndexRange} (hr : t.range = some r)
    (hne : r.count ≠ some 0) (hroom : LeavesRoom e (slice t)) (h : e.ContainsChildren (slice t)) :
    e.contains (slice t) = .holds := by
  have hB : (slice t).indexSet? = some r.Mem := by rw [indexSet?, hr]; rfl
  have hchild : ∀ i ≤ maxIndex, r.Mem i → e.contains (index i) = .holds := by
    intro i hi hmem
    refine h _ (isChild_index hi) ?_
    simp only [contains, Slice.containsIndex, hr, Option.map_some, Verdict.ofOption, Verdict.ofBool_eq_holds]
    exact IndexRange.containsIndex_iff.2 ⟨hi, hmem⟩
  have hfirst := Slice.first_le_of_range hr
  obtain ⟨first, hmem, heq⟩ := IndexRange.exists_mem hne
  obtain ⟨A, hA, -⟩ := exists_indexSet?_of_contains hd (hchild first (by omega) hmem)
  have hsub : ∀ i ≤ maxIndex, r.Mem i → A i := fun i hi hm => indexSet?_of_child hd hA (hchild i hi hm)
  refine (contains_decides hA hB rfl trivial).1.2 ?_
  cases hn : r.count with
  | some n =>
    obtain ⟨right, hright⟩ := IndexRange.exists_right_of_count hn
    exact fun i hi => hsub i (Slice.le_of_mem hr hright hi) hi
  | none =>
    obtain ⟨hsecond, hother⟩ := hroom t r rfl hr hn
    rcases indexSet?_finite_or hA with ⟨bound, hbound⟩ | hall | ⟨s, r', rfl, -, hn', rfl⟩
    · obtain ⟨i, hi, hm, hnot⟩ := hother A bound (by rw [underlying_of_not_isDescent hd]; exact hA) hbound
      exact absurd (hsub i hi hm) hnot
    · exact fun i _ => hall i
    · have hup := r.ascending_of_open (IndexRange.count_eq_none_iff.1 hn)
      obtain ⟨second, hsecond'⟩ : ∃ j : Nat, (j : Int) = r.first + r.step :=
        ⟨(r.first + r.step).toNat, Int.toNat_of_nonneg (by omega)⟩
      have hmem' : r.Mem second := (IndexRange.mem_iff_of_count_eq_none hn).2 ⟨1, by omega⟩
      exact IndexRange.mem_of_two_mem hn' hn heq hsecond' (hsub first (by omega) hmem) (hsub second (by omega) hmem')

private theorem contains_indexes (hd : e.isDescent = false) (her : e.InReach) {B : Nat → Prop}
    (hB : c.indexSet? = some B) (hc : c.Regular) (hroom : LeavesRoom e c) (h : e.ContainsChildren c) :
    e.contains c = .holds := by
  obtain ⟨-, hv, hr, hk⟩ := hc
  obtain ⟨j, rfl, rfl⟩ | ⟨rfl, rfl⟩ | ⟨js, rfl, rfl⟩ | ⟨t, r, rfl, hrange, rfl⟩ := indexSet?_cases hB
  · exact h _ (isChild_index hr) (Verdict.ofBool_eq_holds.2 (decide_eq_true rfl))
  · exact contains_anyIndex hd her h
  · have hchild : ∀ i ∈ js.toList, e.contains (index i) = .holds := fun i hi =>
      h _ (isChild_index (hr i hi)) (Verdict.ofBool_eq_holds.2 (SortedSet.contains_iff.2 hi))
    obtain ⟨first, hfirst⟩ := List.exists_mem_of_ne_nil _ (ne_nil_of_valid_indexes hv)
    obtain ⟨A, hA, -⟩ := exists_indexSet?_of_contains hd (hchild first hfirst)
    exact (contains_decides hA hB hv hr).1.2 fun i hi => indexSet?_of_child hd hA (hchild i hi)
  · obtain ⟨r', hr', hne⟩ := hk
    rw [hrange] at hr'
    cases hr'
    exact contains_slice hd hrange hne hroom h

/-- An element that has all children of another one as children contains it. -/
theorem contains_of_children (hd : e.isDescent = false) (her : e.InReach) (hc : c.Regular) (hcd : c.isDescent = false)
    (hroom : LeavesRoom e c) (h : e.ContainsChildren c) : e.contains c = .holds := by
  rcases nameSet?_or_indexSet? hc hcd with ⟨B, hB⟩ | ⟨B, hB⟩
  · exact contains_names hd hB hc.valid h
  · exact contains_indexes hd her hB hc hroom h

/-! ### Children to choose -/

theorem exists_child (h : c.Regular) (hcd : c.isDescent = false) :
    ∃ m : Element, m.IsChild ∧ c.contains m = .holds := by
  rcases nameSet?_or_indexSet? h hcd with ⟨B, hB⟩ | ⟨B, hB⟩
  · obtain ⟨name, hname, hvname⟩ := exists_property hB h.valid
    exact ⟨_, isChild_property hvname, contains_property_of_nameSet? hB hvname hname⟩
  · obtain ⟨-, hv, hreach, hk⟩ := h
    obtain ⟨j, rfl, rfl⟩ | ⟨rfl, rfl⟩ | ⟨js, rfl, rfl⟩ | ⟨t, r, rfl, hr, rfl⟩ := indexSet?_cases hB
    · exact ⟨_, isChild_index hreach, Verdict.ofBool_eq_holds.2 (decide_eq_true rfl)⟩
    · exact ⟨_, isChild_index_succ, rfl⟩
    · obtain ⟨i, hi⟩ := List.exists_mem_of_ne_nil _ (ne_nil_of_valid_indexes hv)
      exact ⟨_, isChild_index (hreach i hi), Verdict.ofBool_eq_holds.2 (SortedSet.contains_iff.2 hi)⟩
    · obtain ⟨r', hr', hne⟩ := hk
      rw [hr] at hr'
      cases hr'
      obtain ⟨i, hi, heq⟩ := IndexRange.exists_mem hne
      have hfirst := Slice.first_le_of_range hr
      have hle : i ≤ maxIndex := by omega
      refine ⟨_, isChild_index hle, ?_⟩
      simp only [contains, Slice.containsIndex, hr, Option.map_some, Verdict.ofOption, Verdict.ofBool_eq_holds]
      exact IndexRange.containsIndex_iff.2 ⟨hle, hi⟩

/-- A single child is contained in whatever has it as a child, and the wildcards in whatever has a child that none of
finitely many finite sets has. -/
def IsGeneric (c : Element) : Prop := c.isStrict = true ∨ c = anyProperty ∨ c = anyIndex

theorem IsGeneric.isDescent (h : c.IsGeneric) : c.isDescent = false := by
  rcases h with hs | rfl | rfl
  · exact isDescent_of_isStrict hs
  · rfl
  · rfl

private theorem leavesRoom_of_isStrict (hs : c.isStrict = true) (e : Element) : LeavesRoom e c := by
  intro s r hc hr hn
  rw [underlying_of_not_isDescent (isDescent_of_isStrict hs)] at hc
  subst hc
  have hone := of_decide_eq_true hs
  rw [hr, Option.bind_some, hn] at hone
  cases hone

/-- Finitely many elements write down finitely many names. -/
private theorem exists_names (p : List Element) :
    ∃ l : List String, ∀ e ∈ p, ∀ A, e.nameSet? = some A → (∀ name, A name → name ∈ l) ∨ ∀ name, A name := by
  induction p with
  | nil => exact ⟨[], fun _ he => by cases he⟩
  | cons e p ih =>
    obtain ⟨l, hl⟩ := ih
    obtain ⟨l', hl'⟩ : ∃ l' : List String, ∀ A, e.nameSet? = some A →
        (∀ name, A name → name ∈ l') ∨ ∀ name, A name := by
      cases hA : e.nameSet? with
      | none => exact ⟨[], fun _ h => by cases h⟩
      | some A =>
        rcases nameSet?_finite_or hA with ⟨l', hl'⟩ | hall
        · exact ⟨l', fun _ h => by cases h; exact .inl hl'⟩
        · exact ⟨[], fun _ h => by cases h; exact .inr hall⟩
    refine ⟨l' ++ l, List.forall_mem_cons.2 ⟨fun A hA => ?_, fun e' he' A hA => ?_⟩⟩
    · exact (hl' A hA).imp_left fun h name hname => List.mem_append_left _ (h name hname)
    · exact (hl e' he' A hA).imp_left fun h name hname => List.mem_append_right _ (h name hname)

/-- A child that stands for all children of the element when finitely many other elements are asked about it. -/
theorem exists_generic_child (p : List Element) (hp : ∀ e ∈ p, e.InReach) (hg : c.IsGeneric) (hc : c.Regular) :
    ∃ m : Element, m.IsChild ∧ c.contains m = .holds ∧
      ∀ e ∈ p, e.isDescent = false → e.contains m = .holds → e.contains c = .holds := by
  rcases hg with hs | rfl | rfl
  · have hcd := isDescent_of_isStrict hs
    obtain ⟨m, hm, hcm⟩ := exists_child hc hcd
    refine ⟨m, hm, hcm, fun e he hd hem => ?_⟩
    refine contains_of_children hd (hp e he) hc hcd (leavesRoom_of_isStrict hs e) fun m' hm' hcm' => ?_
    -- both children are the normal form of the strict element
    rw [(contains_iff_eq_normalForm hs hm'.isConcrete).1 hcm', ← (contains_iff_eq_normalForm hs hm.isConcrete).1 hcm]
    exact hem
  · obtain ⟨l, hl⟩ := exists_names p
    obtain ⟨name, hname, hvname⟩ := exists_new_name l
    refine ⟨_, isChild_property hvname, rfl, fun e he hd hem => ?_⟩
    obtain ⟨A, hA, hAname⟩ := exists_nameSet?_of_contains hd hvname hem
    rcases hl e he A hA with h | hall
    · exact absurd (h name hAname) hname
    · have hB : anyProperty.nameSet? = some fun _ => True := rfl
      exact (contains_decides_names hA hB hc.valid).1.2 fun n _ => hall n
  · refine ⟨_, isChild_index_succ, rfl, fun e he hd hem => ?_⟩
    rw [eq_anyIndex_of_contains hd (hp e he) (Nat.lt_succ_self _) hem]
    rfl

end Element

end PathContainment
