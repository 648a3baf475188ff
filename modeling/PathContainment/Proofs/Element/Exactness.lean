import PathContainment.Proofs.Element.Made
import PathContainment.Proofs.Element.NameSet
import PathContainment.Proofs.IndexRange.Denotation

/-!
# Containment is exact where the members are known

A property, a list of properties and `.*` describe names; an index, a list of indexes, `[*]` and a slice with a known
range describe indexes. `e.Describes m` says that `m` is one of them. Between two elements of the same family the
verdict of `contains` is that of the inclusion of what they describe: it holds when the candidate describes nothing
that the pattern does not describe, it fails otherwise, and it is never unknown (`contains_iff_describes`). The two
elements may be written in any way; in particular a slice without end goes on for ever, and an empty one is contained
in every element of its family.
-/

namespace PathContainment.Element

open Verdict (Decides)

/-- What leads from a node to one of its children. -/
inductive Member where
  | name (name : String)
  | index (i : Nat)

/-- What kind of members the element describes. -/
inductive Family where
  | names
  | indexes

/-- The family of the element, absent when its members are not known. -/
def family? : Element → Option Family
  | property _ | anyProperty | properties _ => some .names
  | index _ | anyIndex | indexes _ => some .indexes
  | slice s => s.range.map fun _ => .indexes
  | _ => none

/-- The member is one of those that the element describes. -/
def Describes : Element → Member → Prop
  | property name, .name n => n = name
  | anyProperty, .name _ => True
  | properties names, .name n => n ∈ names.toList
  | index i, .index j => j = i
  | anyIndex, .index _ => True
  | indexes is, .index j => j ∈ is.toList
  | slice s, .index j => ∃ r, s.range = some r ∧ r.Denotes j
  | _, _ => False

variable {a b e : Element}

/-- An element of the family of names describes its set of names. -/
private theorem exists_nameSet?_of_family (h : e.family? = some .names) :
    ∃ A, e.nameSet? = some A ∧ (∀ n, e.Describes (.name n) ↔ A n) ∧ ∀ i, ¬e.Describes (.index i) := by
  cases e with
  | property name => exact ⟨_, rfl, fun n => Iff.rfl, fun i => id⟩
  | anyProperty => exact ⟨_, rfl, fun n => Iff.rfl, fun i => id⟩
  | properties names => exact ⟨_, rfl, fun n => Iff.rfl, fun i => id⟩
  | slice s =>
    obtain ⟨r, -, hr⟩ := Option.map_eq_some_iff.1 h
    cases hr
  | _ => cases h

/-- An element of the family of indexes describes its set of indexes. -/
theorem exists_indexSet?_of_family (h : e.family? = some .indexes) :
    ∃ A, e.indexSet? = some A ∧ (∀ i, e.Describes (.index i) ↔ A i) ∧ ∀ n, ¬e.Describes (.name n) := by
  cases e with
  | index i => exact ⟨_, rfl, fun j => Iff.rfl, fun n => id⟩
  | anyIndex => exact ⟨_, rfl, fun j => Iff.rfl, fun n => id⟩
  | indexes is => exact ⟨_, rfl, fun j => Iff.rfl, fun n => id⟩
  | slice s =>
    obtain ⟨r, hr, -⟩ := Option.map_eq_some_iff.1 h
    refine ⟨r.Mem, by rw [indexSet?, hr]; rfl, fun i => ?_, fun n => id⟩
    simp only [Describes, hr, Option.some.injEq, exists_eq_left', IndexRange.denotes_natCast_iff]
  | _ => cases h

/-- Between elements of the same family, which are built from admissible parts, the containment is that of the sets
that they describe, and it is never unknown. -/
theorem contains_iff_describes (hb : b.Made) {family : Family} (ha : a.family? = some family)
    (hfamily : b.family? = some family) :
    (a.contains b = .holds ↔ ∀ m, b.Describes m → a.Describes m) ∧
    (a.contains b = .fails ↔ ¬∀ m, b.Describes m → a.Describes m) ∧ a.contains b ≠ .unknown := by
  have hdecides : Decides (a.contains b) (∀ m, b.Describes m → a.Describes m) := by
    cases family with
    | names =>
      obtain ⟨A, hA, hAiff, -⟩ := exists_nameSet?_of_family ha
      obtain ⟨B, hB, hBiff, hBindex⟩ := exists_nameSet?_of_family hfamily
      refine (contains_decides_names hA hB hb.valid).congr ⟨fun h m hm => ?_, fun h n hn => ?_⟩
      · cases m with
        | name n => exact (hAiff n).2 (h n ((hBiff n).1 hm))
        | index i => exact absurd hm (hBindex i)
      · exact (hAiff n).1 (h (.name n) ((hBiff n).2 hn))
    | indexes =>
      obtain ⟨A, hA, hAiff, -⟩ := exists_indexSet?_of_family ha
      obtain ⟨B, hB, hBiff, hBname⟩ := exists_indexSet?_of_family hfamily
      refine (contains_decides hA hB hb.valid hb.inReach).congr ⟨fun h m hm => ?_, fun h i hi => ?_⟩
      · cases m with
        | name n => exact absurd hm (hBname n)
        | index i => exact (hAiff i).2 (h i ((hBiff i).1 hm))
      · exact (hAiff i).1 (h (.index i) ((hBiff i).2 hi))
  exact ⟨hdecides.1, hdecides.2, hdecides.ne_unknown⟩

/-- The slice `[16:2:-6]` describes the indexes `16`, `10` and `4`, which are in the list `[16,4,7,10]`; the list
describes `7` as well. -/
theorem contains_iff_describes_of_descending :
    ∃ a b, mkIndexes [16, 4, 7, 10] = .ok a ∧ mkSlice (some 16) (some 2) (-6) = .ok b ∧
      (∀ m, b.Describes m → a.Describes m) ∧ ¬∀ m, a.Describes m → b.Describes m := by
  obtain ⟨a, ha⟩ : ∃ a, mkIndexes [16, 4, 7, 10] = .ok a := ⟨_, rfl⟩
  obtain ⟨b, hb⟩ : ∃ b, mkSlice (some 16) (some 2) (-6) = .ok b := ⟨_, rfl⟩
  have hfamily : a.family? = some .indexes ∧ b.family? = some .indexes := by
    cases ha
    cases hb
    exact ⟨rfl, rfl⟩
  have hcontains : a.contains b = .holds ∧ b.contains a = .fails := by
    cases ha
    cases hb
    decide
  exact ⟨a, b, ha, hb, (contains_iff_describes (.slice hb) hfamily.1 hfamily.2).1.1 hcontains.1,
    (contains_iff_describes (.indexes ha) hfamily.2 hfamily.1).2.1.1 hcontains.2⟩

end PathContainment.Element
