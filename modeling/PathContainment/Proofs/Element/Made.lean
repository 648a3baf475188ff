import PathContainment.Proofs.Element.IndexSet
import PathContainment.Proofs.Except

/-!
# Elements that are built from admissible parts

The functions `mk…` check the parts that they are given, and nothing else leads to an element with contents. So an
element that they build (`Element.Made`) may stand in a path (`Made.valid`), and its indexes, which are built from
64-bit integers that are not negative, are at most the largest index (`Made.inReach`).
-/

namespace PathContainment.Element

variable {e : Element}

/-- What is built from a checked part has a property if it has it for every such part. -/
private theorem of_bind {α : Type} {x : Except PathError α} {f : α → Element} {p : Element → Prop}
    (h : (do return f (← x)) = .ok e) (hf : ∀ a, x = .ok a → p (f a)) : p e := by
  obtain ⟨a, ha, h⟩ := bind_eq_ok_iff.1 h
  cases h
  exact hf a ha

/-! ### Faults -/

theorem valid_of_mkProperty {name : String} (h : mkProperty name = .ok e) : e.Valid :=
  of_bind h fun _ hname => hname

theorem valid_of_mkProperties {names : List String} (h : mkProperties names = .ok e) : e.Valid :=
  of_bind h fun _ hnames => hnames

theorem valid_of_mkIndex {i : Int64} (h : mkIndex i = .ok e) : e.Valid :=
  of_bind h fun _ _ => rfl

theorem valid_of_mkIndexes {is : List Int64} (h : mkIndexes is = .ok e) : e.Valid := by
  obtain ⟨ns, -, h⟩ := bind_eq_ok_iff.1 h
  dsimp only at h
  split at h
  · cases h
  · rename_i hne
    cases h
    exact if_neg hne

theorem valid_of_mkSlice {start stop : Option Int64} {step : Int64} (h : mkSlice start stop step = .ok e) :
    e.Valid :=
  of_bind h fun _ _ => rfl

theorem valid_of_mkExpression {text : String} (h : mkExpression text = .ok e) : e.Valid :=
  of_bind h fun _ htext => htext

theorem valid_of_mkFilter {text : String} (h : mkFilter text = .ok e) : e.Valid :=
  of_bind h fun _ htext => htext

theorem valid_of_mkDescent {inner : Element} (hi : inner.Valid) (h : mkDescent inner = .ok e) : e.Valid :=
  of_bind h fun _ hinner => bind_eq_ok_iff.2 ⟨(), hinner, hi⟩

/-! ### Indexes -/

theorem le_of_checkIndex {i : Int64} {n : Nat} (h : checkIndex i = .ok n) : n ≤ maxIndex := by
  unfold checkIndex at h
  split at h
  · cases h
  · cases h
    have := i.toInt_lt
    simp only [maxIndex]
    omega

private theorem le_of_mapM_checkIndex {is : List Int64} {ns : List Nat} (h : is.mapM checkIndex = .ok ns) :
    ∀ n ∈ ns, n ≤ maxIndex := by
  intro n hn
  obtain ⟨i, -, hi⟩ := exists_mem_of_forall₂_right (mapM_eq_ok_iff.1 h) hn
  exact le_of_checkIndex hi

theorem inReach_of_mkIndex {i : Int64} (h : mkIndex i = .ok e) : e.InReach :=
  of_bind h fun _ hn => le_of_checkIndex hn

theorem exists_indexes_of_mkIndexes {is : List Int64} (h : mkIndexes is = .ok e) : ∃ set, e = indexes set := by
  obtain ⟨ns, -, h⟩ := bind_eq_ok_iff.1 h
  dsimp only at h
  split at h
  · cases h
  · cases h
    exact ⟨_, rfl⟩

theorem inReach_of_mkIndexes {is : List Int64} (h : mkIndexes is = .ok e) : e.InReach := by
  obtain ⟨ns, hns, h⟩ := bind_eq_ok_iff.1 h
  dsimp only at h
  split at h
  · cases h
  · cases h
    intro n hn
    exact le_of_mapM_checkIndex hns n (SortedSet.mem_of_mem_ofList hn)

theorem inReach_of_mkProperty {name : String} (h : mkProperty name = .ok e) : e.InReach :=
  of_bind h fun _ _ => trivial

theorem inReach_of_mkProperties {names : List String} (h : mkProperties names = .ok e) : e.InReach :=
  of_bind h fun _ _ => trivial

theorem inReach_of_mkSlice {start stop : Option Int64} {step : Int64} (h : mkSlice start stop step = .ok e) :
    e.InReach :=
  of_bind h fun _ _ => trivial

theorem inReach_of_mkExpression {text : String} (h : mkExpression text = .ok e) : e.InReach :=
  of_bind h fun _ _ => trivial

theorem inReach_of_mkFilter {text : String} (h : mkFilter text = .ok e) : e.InReach :=
  of_bind h fun _ _ => trivial

theorem inReach_of_mkDescent {inner : Element} (hi : inner.InReach) (h : mkDescent inner = .ok e) : e.InReach :=
  of_bind h fun _ _ => hi

/-! ### All elements that are built -/

/-- The element has no contents, or it is built from parts that have been checked. -/
inductive Made : Element → Prop
  | root : Made root
  | anyProperty : Made anyProperty
  | anyIndex : Made anyIndex
  | property {name : String} {e : Element} : mkProperty name = .ok e → Made e
  | properties {names : List String} {e : Element} : mkProperties names = .ok e → Made e
  | index {i : Int64} {e : Element} : mkIndex i = .ok e → Made e
  | indexes {is : List Int64} {e : Element} : mkIndexes is = .ok e → Made e
  | slice {start stop : Option Int64} {step : Int64} {e : Element} : mkSlice start stop step = .ok e → Made e
  | expression {text : String} {e : Element} : mkExpression text = .ok e → Made e
  | filter {text : String} {e : Element} : mkFilter text = .ok e → Made e
  | descent {inner e : Element} : Made inner → mkDescent inner = .ok e → Made e

theorem Made.valid (h : e.Made) : e.Valid := by
  induction h with
  | root | anyProperty | anyIndex => rfl
  | property h => exact valid_of_mkProperty h
  | properties h => exact valid_of_mkProperties h
  | index h => exact valid_of_mkIndex h
  | indexes h => exact valid_of_mkIndexes h
  | slice h => exact valid_of_mkSlice h
  | expression h => exact valid_of_mkExpression h
  | filter h => exact valid_of_mkFilter h
  | descent _ h ih => exact valid_of_mkDescent ih h

theorem Made.inReach (h : e.Made) : e.InReach := by
  induction h with
  | root | anyProperty | anyIndex => exact trivial
  | property h => exact inReach_of_mkProperty h
  | properties h => exact inReach_of_mkProperties h
  | index h => exact inReach_of_mkIndex h
  | indexes h => exact inReach_of_mkIndexes h
  | slice h => exact inReach_of_mkSlice h
  | expression h => exact inReach_of_mkExpression h
  | filter h => exact inReach_of_mkFilter h
  | descent _ h ih => exact inReach_of_mkDescent ih h

end PathContainment.Element
