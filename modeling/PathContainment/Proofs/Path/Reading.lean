import PathContainment.Proofs.Element.Made
import PathContainment.Proofs.Path.Reach
import PathContainment.Proofs.Sequence.Writing

/-!
# What is read is a path

Each form of a bracket builds its element in its own way, and two dots wrap up whatever follows them. What comes of it
is admissible all the same: the grammar names after dots and in brackets only what a recursive descent may lead to,
and the root nowhere but at the start (`Sequence.valid_of_text`). So the elements that a text describes always are
those of a path, and reading a path fails only where reading its elements does, or where the path is of the wrong type
(`Path.admissible_of_read`).
-/

namespace PathContainment

theorem Element.Readable.inReach {e : Element} (h : e.Readable) : e.InReach := by
  induction e with
  | index i => exact h
  | indexes is => exact h
  | descent inner ih => exact ih h
  | _ => trivial

namespace Grammar

open Sequence

variable {s : List Char} {e : Element} {es : List Element}

/-! ### What the grammar names is admissible -/

theorem Name.valid_descent (h : Name s e) : (Element.descent e).Valid := by
  cases h with
  | any => rfl
  | property hne hany hs =>
    refine Element.checkName_eq_ok_iff.2 fun hm => ?_
    rw [String.toList_ofList] at hm
    exact hs _ hm (by decide)

theorem Numbers.valid_descent (h : Numbers s e) : (Element.descent e).Valid := by
  cases h with
  | index | slice | steppedSlice => rfl
  | @indexes ns hs hns =>
    have hempty : (SortedSet.ofList ns).isEmpty = false := by
      rw [SortedSet.isEmpty_ofList, List.isEmpty_eq_false_iff]
      rintro rfl
      cases hns
    show (if (SortedSet.ofList ns).isEmpty then _ else _) = _
    rw [hempty]
    rfl

theorem Content.valid_descent (h : Content s e) : (Element.descent e).Valid := by
  have htext : ∀ {t : List Char}, t ≠ [] → Element.checkText (String.ofList t) = .ok () := by
    intro t ht
    rw [checkText_eq_ok_iff, String.toList_ofList]
    exact ht
  cases h with
  | anyIndex => rfl
  | @property _ name hs =>
    show (Element.property name).Valid
    exact Element.valid_of_mkProperty (ofNames_singleton hs)
  | @properties _ names hs hnames =>
    have hmk : Element.mkProperties names = .ok (.properties (.ofList names)) := by
      rw [← ofNames_of_two_le hs hnames]
      match names with
      | _ :: _ :: _ => rfl
    show (Element.properties (.ofList names)).Valid
    exact Element.valid_of_mkProperties hmk
  | expression ht => exact htext ht
  | filter _ ht => exact htext ht
  | numbers hs => exact hs.valid_descent

theorem Bracket.valid_descent (h : Bracket s e) : (Element.descent e).Valid := by
  obtain ⟨-, hs, -⟩ := h
  exact hs.valid_descent

theorem Segment.valid (h : Segment s e) : e.Valid ∧ e ≠ .root := by
  have htarget : ∀ {e : Element}, (Element.descent e).Valid → e.Valid ∧ e ≠ .root := by
    intro e he
    obtain ⟨hroot, -, hv⟩ := Element.valid_descent_iff.1 he
    exact ⟨hv, hroot⟩
  cases h with
  | name hs => exact htarget hs.valid_descent
  | bracket hs => exact htarget hs.valid_descent
  | dotBracket hs => exact htarget hs.valid_descent
  | descentToName hs => exact ⟨hs.valid_descent, Element.noConfusion⟩
  | descentToBracket hs => exact ⟨hs.valid_descent, Element.noConfusion⟩

theorem Segments.valid (h : Segments s es) : ∀ e ∈ es, e.Valid ∧ e ≠ .root := by
  induction h with
  | nil => exact fun e he => by cases he
  | cons hs _ ih => exact List.forall_mem_cons.2 ⟨hs.valid, ih⟩

theorem Segments.ne_nil (h : Segments s es) (hs : s ≠ []) : es ≠ [] := by
  cases h with
  | nil => exact absurd rfl hs
  | cons _ _ => exact List.cons_ne_nil _ _

end Grammar

namespace Sequence

open Grammar

variable {es : List Element}

/-- The elements that the grammar names are those of a path. -/
theorem valid_of_text {s : List Char} (h : Text s es) : Valid es := by
  have hcons : ∀ {t : List Char} {e : Element} {rest : List Element}, e.Valid → Segments t rest → Valid (e :: rest) := by
    intro t e rest he hrest
    refine ⟨List.cons_ne_nil _ _, fun hm => (hrest.valid _ hm).2 rfl, ?_⟩
    exact List.forall_mem_cons.2 ⟨he, fun e' he' => (hrest.valid e' he').1⟩
  cases h with
  | root hs => exact hcons rfl hs
  | named hs _ ht => exact hcons (Element.valid_descent_iff.1 hs.valid_descent).2.2 ht
  | headless hne hs =>
    refine ⟨hs.ne_nil hne, fun hm => (hs.valid _ (List.mem_of_mem_tail hm)).2 rfl, ?_⟩
    exact fun e he => (hs.valid e he).1

theorem valid_of_read {text : String} (h : read text = .ok es) : Valid es :=
  valid_of_text (ofChars_eq_ok_iff.1 h)

end Sequence

namespace Path

variable {scope : Scope} {text : String} {es : List Element} {fault : ParseError}

/-! ### Reading paths -/

/-- Valid elements that a type of paths admits are those of a path of the type. -/
theorem exists_of_admits (hv : Sequence.Valid es) (ha : scope.admits es = true) :
    ∃ p : Path scope, ofElements scope es = .ok p ∧ p.elements = es :=
  let p : Path scope := { elements := es, valid := hv, admitted := ha }
  ⟨p, p.ofElements_elements, rfl⟩

theorem ofElements_of_not_admits (hv : Sequence.Valid es) (ha : scope.admits es = false) :
    ofElements scope es = .error scope.refusal := by
  unfold ofElements
  split
  · rename_i h
    rw [Sequence.check_eq_ok_iff.2 hv] at h
    cases h
  · rw [dif_neg (by rw [ha]; exact Bool.false_ne_true)]

/-- Reading a path fails where reading its elements does, or because the type does not admit the path. -/
theorem read_eq_error_iff :
    read scope text = .error fault ↔ Sequence.read text = .error fault ∨
      fault = .invalid scope.refusal ∧ ∃ es, Sequence.read text = .ok es ∧ scope.admits es = false := by
  cases hread : Sequence.read text with
  | error fault' =>
    have hfault : read scope text = .error fault' := by
      rw [read, hread]
      rfl
    simp [hfault]
  | ok es =>
    have hv := Sequence.valid_of_read hread
    have hof : read scope text = Sequence.admitted (ofElements scope es) := by
      rw [read, hread]
      rfl
    rw [hof]
    cases ha : scope.admits es with
    | true =>
      obtain ⟨p, hp, -⟩ := exists_of_admits hv ha
      rw [hp]
      simp [Sequence.admitted, Except.mapError, ha]
    | false =>
      rw [ofElements_of_not_admits hv ha]
      simp [Sequence.admitted, Except.mapError, ha]
      exact eq_comm

/-- The elements of a path that is read from a text are in reach. -/
theorem inReach_of_read {p : Path scope} (h : read scope text = .ok p) : ∀ e ∈ p.elements, e.InReach := by
  obtain ⟨es, hes, h⟩ := bind_eq_ok_iff.1 h
  rw [elements_of_ofElements (Sequence.admitted_eq_ok_iff.1 h)]
  exact fun e he => (Sequence.readable_of_text (Sequence.ofChars_eq_ok_iff.1 hes) e he).inReach

/-- Whatever elements a text describes, they are those of a path: there is one at least, the root stands nowhere but
at the start, all of them are admissible, their indexes are in reach and their texts balanced. So reading a path of
whatever kind fails with the faults of reading its elements only, and reading an absolute or a relative path fails
besides when the path is not absolute, or not relative. -/
theorem admissible_of_read (text : String) :
    (∀ es, Sequence.read text = .ok es →
      es ≠ [] ∧ Element.root ∉ es.tail ∧ (∀ e ∈ es, e.Valid ∧ e.Readable) ∧
      ∃ p : AnyPath, ofElements .any es = .ok p ∧ p.elements = es) ∧
    (∀ fault, read .any text = .error fault ↔ Sequence.read text = .error fault) ∧
    (∀ fault, read .absolute text = .error fault ↔ Sequence.read text = .error fault ∨
      fault = .invalid .notAbsolute ∧ ∃ es, Sequence.read text = .ok es ∧ Sequence.isAbsolute es = false) ∧
    (∀ fault, read .relative text = .error fault ↔ Sequence.read text = .error fault ∨
      fault = .invalid .notRelative ∧ ∃ es, Sequence.read text = .ok es ∧ Sequence.isAbsolute es = true) := by
  refine ⟨fun es hes => ?_, fun fault => ?_, fun fault => read_eq_error_iff, fun fault => ?_⟩
  · have hv := Sequence.valid_of_read hes
    have hr := Sequence.readable_of_text (Sequence.ofChars_eq_ok_iff.1 hes)
    exact ⟨hv.ne_nil, hv.root_not_mem_tail, fun e he => ⟨hv.valid_of_mem e he, hr e he⟩, exists_of_admits hv rfl⟩
  · simp [read_eq_error_iff, Scope.admits]
  · simp [read_eq_error_iff, Scope.admits, Scope.refusal]

/-- The text `$..['a', 'b'].[(f(x))]` describes an absolute path, so that reading it as a relative one fails. -/
theorem admissible_of_read_of_brackets :
    let text := "$..['a', 'b'].[(f(x))]"
    let es : List Element := [.root, .descent (.properties { toList := ["a", "b"], increasing := by decide }),
      .expression "f(x)"]
    Sequence.read text = .ok es ∧ (∃ p : AnyPath, ofElements .any es = .ok p ∧ p.elements = es) ∧
      read .relative text = .error (.invalid .notRelative) ∧ ∀ fault, read .absolute text ≠ .error fault := by
  intro text es
  have hes : Sequence.read text = .ok es := by decide +kernel
  obtain ⟨hadmissible, -, habsolute, hrelative⟩ := admissible_of_read text
  obtain ⟨-, -, -, hpath⟩ := hadmissible es hes
  refine ⟨hes, hpath, (hrelative _).2 (.inr ⟨rfl, es, hes, rfl⟩), fun fault h => ?_⟩
  rcases (habsolute fault).1 h with hfault | ⟨-, es', hes', hnot⟩
  · rw [hes] at hfault
    cases hfault
  · rw [hes] at hes'
    cases hes'
    cases hnot

end Path

end PathContainment
