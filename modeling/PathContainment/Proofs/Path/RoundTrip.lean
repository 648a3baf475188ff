import PathContainment.Proofs.Path.Reach
import PathContainment.Proofs.Element.Equality
import PathContainment.Proofs.Sequence.Writing

/-!
# Reading the canonical text of a path

The canonical text of a path describes the path again exactly if each of its elements can be restored
(`Path.read_text_iff`): its lists have two entries at least, its indexes are in reach, and its texts in parentheses
are balanced. Where the last two hold, the text is read as the path with the entries in place of its lists of one
entry, since these are written in the same way. Where they do not, nothing that is read can be the path.
-/

namespace PathContainment

namespace Element

/-- The element is described by its own text. -/
def Restorable : Element → Prop
  | properties names => 2 ≤ names.size
  | index i => i ≤ maxIndex
  | indexes is => 2 ≤ is.size ∧ ∀ i ∈ is.toList, i ≤ maxIndex
  | expression text | filter text => Sequence.Nesting.start.scan text.toList = some .start
  | descent inner => inner.Restorable
  | _ => True

variable {e e' : Element}

theorem Restorable.readable (h : e.Restorable) : e.Readable := by
  induction e with
  | index => exact h
  | indexes => exact h.2
  | expression | filter => exact Sequence.scan_eq_some_start_iff.1 h
  | descent inner ih => exact ih h
  | _ => trivial

theorem Restorable.collapse (h : e.Restorable) : e.collapse = e := by
  have hnone : ∀ {α : Type} [LT α] {s : SortedSet α}, 2 ≤ s.size → s.only? = none := by
    intro α _ s hs
    exact SortedSet.only?_eq_none_iff.2 (by omega)
  induction e with
  | properties names =>
    rw [Element.collapse, hnone h]
  | indexes is =>
    rw [Element.collapse, hnone h.1]
  | descent inner ih => rw [Element.collapse, ih h]
  | _ => rfl

/-- An element that is the same with the entries in place of its lists of one entry has no such lists. -/
theorem restorable_of_collapse (hv : e.Valid) (hr : e.Readable) (h : (e.collapse == e) = true) : e.Restorable := by
  induction e with
  | properties names =>
    unfold collapse at h
    split at h
    · cases kind_congr h
    · rename_i honly
      exact SortedSet.two_le_size (ne_nil_of_valid_properties hv) honly
  | indexes is =>
    unfold collapse at h
    split at h
    · cases kind_congr h
    · rename_i honly
      exact ⟨SortedSet.two_le_size (ne_nil_of_valid_indexes hv) honly, hr⟩
  | index => exact hr
  | expression | filter => exact Sequence.scan_eq_some_start_iff.2 hr
  | descent inner ih =>
    obtain ⟨-, -, hv⟩ := valid_descent_iff.1 hv
    exact ih hv hr h
  | _ => trivial

private theorem readable_canonical_iff : e.canonical.Readable ↔ e.Readable := by
  induction e with
  | descent inner ih => exact ih
  | _ => rfl

/-- Equal elements are readable together. -/
theorem readable_congr (h : (e == e') = true) : e.Readable ↔ e'.Readable := by
  rw [← readable_canonical_iff, beq_iff.1 h, readable_canonical_iff]

end Element

namespace Path

variable {scope : Scope}

private theorem read_text_eq_ok_iff {p : Path scope} {es : List Element} :
    Sequence.read p.text = .ok es ↔ Grammar.Text (Sequence.chars p.elements) es := by
  unfold Sequence.read text Sequence.text
  rw [String.toList_ofList, Sequence.ofChars_eq_ok_iff]

/-- A path whose elements can all be restored is described by its canonical text. -/
theorem read_text (p : Path scope) (hr : ∀ e ∈ p.elements, e.Restorable) : Path.read scope p.text = .ok p := by
  have htext := Sequence.text_chars p.valid fun e he => (hr e he).readable
  have hcollapse : p.elements.map Element.collapse = p.elements := by
    rw [List.map_congr_left fun e he => (hr e he).collapse]
    exact List.map_id' _
  rw [hcollapse] at htext
  exact bind_eq_ok_iff.2 ⟨_, read_text_eq_ok_iff.2 htext, Sequence.admitted_eq_ok_iff.2 p.ofElements_elements⟩

/-- A path that is equal to one read from a text has readable elements. -/
private theorem readable_of_beq {s : List Char} {es es' : List Element} (h : Grammar.Text s es)
    (heq : (es == es') = true) : ∀ e ∈ es', e.Readable := by
  intro e he
  have hmem : e.canonical ∈ es.map Element.canonical := by
    rw [Element.list_beq_iff.1 heq]
    exact List.mem_map_of_mem he
  obtain ⟨e', he', hcanonical⟩ := List.mem_map.1 hmem
  exact (Element.readable_congr (Element.beq_iff.2 hcanonical)).1 (Sequence.readable_of_text h e' he')

/-- Reading the canonical text of a path leads back to the path exactly if all its elements can be restored. -/
theorem read_text_iff (p : Path scope) :
    (∃ q, Path.read scope p.text = .ok q ∧ (q == p) = true) ↔ ∀ e ∈ p.elements, e.Restorable := by
  constructor
  · rintro ⟨q, hread, hqp⟩
    obtain ⟨es, hes, hq⟩ := bind_eq_ok_iff.1 hread
    have hbeq : (es == p.elements) = true := by
      rw [← elements_of_ofElements (Sequence.admitted_eq_ok_iff.1 hq)]
      exact hqp
    have hreadable := readable_of_beq (read_text_eq_ok_iff.1 hes) hbeq
    -- what is read from the canonical text is known, once the path is readable
    have hcollapse : es = p.elements.map Element.collapse := by
      have hcollapsed := read_text_eq_ok_iff.2 (Sequence.text_chars p.valid hreadable)
      rw [hes] at hcollapsed
      cases hcollapsed
      rfl
    rw [Element.list_beq_iff, hcollapse, List.map_map] at hbeq
    intro e he
    have hcanonical : e.collapse.canonical = e.canonical := List.map_inj_left.1 hbeq e he
    exact Element.restorable_of_collapse (p.valid.valid_of_mem e he) (hreadable e he) (Element.beq_iff.2 hcanonical)
  · intro hr
    exact ⟨p, p.read_text hr, (BEq.rfl : (p.elements == p.elements) = true)⟩

end Path

end PathContainment
