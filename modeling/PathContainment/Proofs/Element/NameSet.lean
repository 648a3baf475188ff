import PathContainment.Proofs.SortedSet
import PathContainment.Proofs.Verdict
import PathContainment.Element.Containment
import PathContainment.Except

/-!
# Containment of sets of names

Properties, lists of properties and the wildcard `.*` describe sets of names. Between them the containment is decided
by the sets, as it is between elements with known indexes. There are infinitely many names, so that no list contains
the wildcard.
-/

namespace PathContainment.Element

open Verdict (Decides decides_ofBool decides_holds decides_fails)

/-! ### Names that a path may contain -/

theorem checkName_eq_ok_iff {name : String} : checkName name = .ok () ↔ '\'' ∉ name.toList := by
  unfold checkName
  split
  · rename_i h
    exact iff_of_false (fun h => by cases h) (not_not_intro h)
  · rename_i h
    exact iff_of_true rfl h

theorem checkEach_eq_ok_iff {names : List String} :
    checkEach names = .ok () ↔ ∀ name ∈ names, '\'' ∉ name.toList := by
  induction names with
  | nil => exact iff_of_true rfl fun name h => by cases h
  | cons name names ih =>
    rw [List.forall_mem_cons, ← ih, ← checkName_eq_ok_iff]
    constructor
    · intro h
      obtain ⟨⟨⟩, hname, h⟩ := bind_eq_ok_iff.1 h
      exact ⟨hname, h⟩
    · rintro ⟨hname, h⟩
      exact bind_eq_ok_iff.2 ⟨(), hname, h⟩

theorem quote_not_mem_of_valid {names : SortedSet String} (hv : (properties names).Valid) :
    ∀ name ∈ names.toList, '\'' ∉ name.toList := by
  unfold Valid check checkNames at hv
  split at hv
  · cases hv
  · exact checkEach_eq_ok_iff.1 hv

/-! ### Sets of names -/

/-- The names that the element describes, if it describes names only. -/
def nameSet? : Element → Option (String → Prop)
  | property name => some (· = name)
  | anyProperty => some fun _ => True
  | properties names => some (· ∈ names.toList)
  | _ => none

variable {a b : Element} {A B : String → Prop}

theorem nameSet?_cases (h : a.nameSet? = some A) :
    (∃ name, a = property name ∧ A = (· = name)) ∨ (a = anyProperty ∧ A = fun _ => True) ∨
      ∃ names, a = properties names ∧ A = (· ∈ names.toList) := by
  cases a with
  | property name => exact .inl ⟨name, rfl, (Option.some.inj h).symm⟩
  | anyProperty => exact .inr (.inl ⟨rfl, (Option.some.inj h).symm⟩)
  | properties names => exact .inr (.inr ⟨names, rfl, (Option.some.inj h).symm⟩)
  | _ => cases h

theorem ne_nil_of_valid_properties {names : SortedSet String} (h : (properties names).Valid) : names.toList ≠ [] := by
  intro hl
  simp [Valid, check, checkNames, SortedSet.isEmpty, hl] at h

/-- There is always another name, and one that a path may contain. -/
theorem exists_new_name (l : List String) : ∃ name, name ∉ l ∧ (property name).Valid := by
  obtain ⟨m, hm⟩ := exists_bound String.length l
  refine ⟨String.ofList (List.replicate (m + 1) 'a'), fun h => ?_, if_neg ?_⟩
  · have := hm _ h
    rw [String.length_ofList, List.length_replicate] at this
    omega
  · rw [String.toList_ofList]
    exact fun hquote => absurd (List.eq_of_mem_replicate hquote) (by decide)

/-- Between elements that describe names, the containment is decided by their sets of names. -/
theorem contains_decides_names (ha : a.nameSet? = some A) (hb : b.nameSet? = some B) (hv : b.Valid) :
    Decides (a.contains b) (∀ name, B name → A name) := by
  obtain ⟨n, rfl, rfl⟩ | ⟨rfl, rfl⟩ | ⟨ns, rfl, rfl⟩ := nameSet?_cases ha
  · obtain ⟨n', rfl, rfl⟩ | ⟨rfl, rfl⟩ | ⟨ns', rfl, rfl⟩ := nameSet?_cases hb
    · rw [contains]
      apply decides_ofBool
      rw [decide_eq_true_eq, forall_eq]
      exact eq_comm
    · refine decides_fails fun h => ?_
      obtain ⟨n', hn', -⟩ := exists_new_name [n]
      exact hn' (List.mem_singleton.2 (h n' trivial))
    · rw [contains]
      apply decides_ofBool
      rw [decide_eq_true_eq]
      exact SortedSet.only?_eq_some_iff_forall (ne_nil_of_valid_properties hv)
  · obtain ⟨n', rfl, rfl⟩ | ⟨rfl, rfl⟩ | ⟨ns', rfl, rfl⟩ := nameSet?_cases hb
    all_goals exact decides_holds fun _ _ => trivial
  · obtain ⟨n', rfl, rfl⟩ | ⟨rfl, rfl⟩ | ⟨ns', rfl, rfl⟩ := nameSet?_cases hb
    · rw [contains]
      apply decides_ofBool
      rw [SortedSet.contains_iff, forall_eq]
    · refine decides_fails fun h => ?_
      obtain ⟨n', hn', -⟩ := exists_new_name ns.toList
      exact hn' (h n' trivial)
    · rw [contains]
      exact decides_ofBool SortedSet.subset_iff

end PathContainment.Element
