import PathContainment.Proofs.Element.IndexSet
import PathContainment.Proofs.Element.NameSet
import PathContainment.Proofs.Sequence.Reading
import PathContainment.Sequence.Text
import PathContainment.Sequence.Validity

/-!
# Canonical texts are in the grammar

The canonical text of a sequence of elements is one that the grammar generates, provided that the indexes are in reach
and the texts in parentheses balanced (`text_chars`). It is not always the text of the same elements: a list with a
single entry is written as the entry is, in brackets, and so the grammar names the entry (`Element.collapse`).
Conversely, only elements in reach and with balanced texts are named by the grammar (`readable_of_text`).
-/

namespace PathContainment

namespace Element

/-- The indexes written in the element are ones that an array can have, and its text, if it has one, ends where its
parentheses do. -/
def Readable : Element → Prop
  | index i => i ≤ maxIndex
  | indexes is => ∀ i ∈ is.toList, i ≤ maxIndex
  | expression text | filter text => Sequence.Balanced text.toList
  | descent inner => inner.Readable
  | _ => True

/-- The element with the single entry of a list in place of the list. -/
def collapse : Element → Element
  | properties names =>
    match names.only? with
    | some name => property name
    | none => properties names
  | indexes is =>
    match is.only? with
    | some i => index i
    | none => indexes is
  | descent inner => descent inner.collapse
  | e => e

end Element

namespace Sequence

open Grammar

variable {e : Element}

/-! ### Entries of brackets -/

theorem listed_intercalate {α : Type} {X : List Char → α → Prop} {separator : Char} {f : α → List Char} {as : List α}
    (has : as ≠ []) (hf : ∀ a ∈ as, X (f a) a) :
    Listed X separator (List.intercalate [separator] (as.map f)) as := by
  induction as with
  | nil => exact absurd rfl has
  | cons a as ih =>
    obtain ⟨ha, has'⟩ := List.forall_mem_cons.1 hf
    cases as with
    | nil => simpa [List.intercalate] using Listed.single (Padded.of ha)
    | cons b as => simpa [List.intercalate] using Listed.cons (Padded.of ha) (ih (List.cons_ne_nil b as) has')

private theorem part_ofWord (i : Option Int64) : Part ((i.map Decimal.ofWord).getD []) i := by
  cases i with
  | none => exact .absent
  | some i => exact .given (Decimal.number_ofWord i)

private theorem index_ofNat {n : Nat} (hn : n ≤ maxIndex) : Index (Decimal.ofNat n) n := by
  have hword : (Int64.ofInt n).toInt = n := Int64.toInt_ofInt_of_le (by omega) (by simp only [maxIndex] at hn; omega)
  exact .mk (Decimal.number_ofNat hword) hword

private theorem quotedName_quoted {name : String} (h : '\'' ∉ name.toList) :
    QuotedName (Element.quoted name) name := by
  have hname := QuotedName.mk h
  rw [String.ofList_toList] at hname
  exact hname

/-! ### Brackets -/

private theorem bracket_bracketed {s : List Char} (hs : Content s e) : Bracket (Element.bracketed s) e :=
  .mk (.of hs)

private theorem content_properties {names : SortedSet String} (hv : (Element.properties names).Valid) :
    Content (Element.listed (names.toList.map Element.quoted)) (Element.properties names).collapse := by
  have hne := Element.ne_nil_of_valid_properties hv
  have hlisted : Listed QuotedName ',' (Element.listed (names.toList.map Element.quoted)) names.toList :=
    listed_intercalate hne fun name hname => quotedName_quoted (Element.quote_not_mem_of_valid hv name hname)
  unfold Element.collapse
  split
  · rename_i name honly
    rw [SortedSet.only?_eq_some_iff.1 honly] at hlisted ⊢
    exact .property hlisted
  · rename_i honly
    have hcontent := Content.properties hlisted (SortedSet.two_le_size hne honly)
    rw [SortedSet.ofList_toList] at hcontent
    exact hcontent

private theorem content_indexes {is : SortedSet Nat} (hv : (Element.indexes is).Valid)
    (hr : ∀ i ∈ is.toList, i ≤ maxIndex) :
    Content (Element.listed (is.toList.map Decimal.ofNat)) (Element.indexes is).collapse := by
  have hne := Element.ne_nil_of_valid_indexes hv
  have hlisted : Listed Index ',' (Element.listed (is.toList.map Decimal.ofNat)) is.toList :=
    listed_intercalate hne fun i hi => index_ofNat (hr i hi)
  unfold Element.collapse
  split
  · rename_i i honly
    have hi := SortedSet.only?_eq_some_iff.1 honly
    have hindex : Index (Decimal.ofNat i) i := index_ofNat (hr i (by rw [hi]; exact List.mem_cons_self))
    rw [hi]
    simpa [Element.listed, List.intercalate] using Content.numbers (.index hindex)
  · rename_i honly
    have hcontent := Content.numbers (.indexes hlisted (SortedSet.two_le_size hne honly))
    rw [SortedSet.ofList_toList] at hcontent
    exact hcontent

private theorem content_slice (s : Slice) : Content (Element.sliceChars s) (.slice s) := by
  obtain ⟨start, stop, step, hstep⟩ := s
  have hstart := Padded.of (part_ofWord start)
  have hstop := Padded.of (part_ofWord stop)
  unfold Element.sliceChars
  split
  · rename_i hone
    cases hone
    rw [List.append_nil]
    exact .numbers (.slice (.cons hstart (.single hstop)))
  · rw [List.append_assoc]
    exact .numbers (.steppedSlice (.cons hstart (.cons hstop (.single (Padded.of (part_ofWord (some step)))))) hstep)

/-! ### Elements -/

private theorem name_of_isSimpleName {name : String} (hs : isSimpleName name.toList = true)
    (hquote : '\'' ∉ name.toList) : Name name.toList (.property name) := by
  simp only [isSimpleName, Bool.and_eq_true, decide_eq_true_eq, Bool.not_eq_true', List.any_eq_false] at hs
  have hname : Name name.toList (.property (String.ofList name.toList)) := by
    refine .property hs.1 (fun hany => ?_) fun c hc => ?_
    · exact hs.2 '*' (by rw [hany]; exact List.mem_cons_self) (by decide)
    · have hout := hs.2 c hc
      have hc' : c ≠ '\'' := fun h => hquote (h ▸ hc)
      simp_all
  rw [String.ofList_toList] at hname
  exact hname

/-- The text of an element that is neither the root nor a recursive descent is a name, after a dot unless it stands at
the start, or a bracket. -/
private theorem name_or_bracket (follows : Bool) (hv : e.Valid) (hr : e.Readable) (hroot : e ≠ .root)
    (hd : e.isDescent = false) :
    (∃ s, Name s e.collapse ∧ e.chars follows = (if follows then '.' :: s else s) ∧ (follows = false → s ≠ ['$'])) ∨
      Bracket (e.chars follows) e.collapse := by
  cases e with
  | root => exact absurd rfl hroot
  | property name =>
    have hquote : '\'' ∉ name.toList := Element.checkName_eq_ok_iff.1 hv
    unfold Element.chars
    split
    · rename_i hs
      rw [Bool.and_eq_true] at hs
      refine .inl ⟨name.toList, name_of_isSimpleName hs.1 hquote, rfl, ?_⟩
      rintro rfl hsign
      have hname : name ≠ "$" := by simpa using hs.2
      exact hname (String.toList_inj.1 hsign)
    · exact .inr (bracket_bracketed (.property (.single (.of (quotedName_quoted hquote)))))
  | anyProperty =>
    refine .inl ⟨['*'], .any, by cases follows <;> rfl, fun _ => by decide⟩
  | properties names => exact .inr (bracket_bracketed (content_properties hv))
  | index i => exact .inr (bracket_bracketed (.numbers (.index (index_ofNat hr))))
  | anyIndex => exact .inr (bracket_bracketed .anyIndex)
  | indexes is => exact .inr (bracket_bracketed (content_indexes hv hr))
  | slice s => exact .inr (bracket_bracketed (content_slice s))
  | expression text =>
    have hcontent := Content.expression (checkText_eq_ok_iff.1 hv) hr
    rw [String.ofList_toList] at hcontent
    exact .inr (bracket_bracketed hcontent)
  | filter text =>
    have hcontent := Content.filter .nil (checkText_eq_ok_iff.1 hv) hr
    rw [String.ofList_toList] at hcontent
    exact .inr (bracket_bracketed hcontent)
  | descent inner => cases hd

private theorem segment_chars_descent {inner : Element} (hv : (Element.descent inner).Valid) (hr : inner.Readable)
    (follows : Bool) : Segment ((Element.descent inner).chars follows) (Element.descent inner).collapse := by
  obtain ⟨hroot, hd, hv⟩ := Element.valid_descent_iff.1 hv
  rcases name_or_bracket false hv hr hroot hd with ⟨s, hs, heq, -⟩ | hs
  · rw [Element.chars, heq]
    exact .descentToName hs
  · exact .descentToBracket hs

private theorem segment_chars (hv : e.Valid) (hr : e.Readable) (hroot : e ≠ .root) :
    Segment (e.chars true) e.collapse := by
  cases hd : e.isDescent with
  | true =>
    cases e with
    | descent inner => exact segment_chars_descent hv hr true
    | _ => cases hd
  | false =>
    rcases name_or_bracket true hv hr hroot hd with ⟨s, hs, heq, -⟩ | hs
    · rw [heq]
      exact .name hs
    · exact .bracket hs

private theorem segments_chars {es : List Element} (h : ∀ e ∈ es, e.Valid ∧ e.Readable ∧ e ≠ .root) :
    Segments (es.flatMap (Element.chars true)) (es.map Element.collapse) := by
  induction es with
  | nil => exact .nil
  | cons e es ih =>
    obtain ⟨⟨hv, hr, hroot⟩, h⟩ := List.forall_mem_cons.1 h
    exact .cons (segment_chars hv hr hroot) (ih h)

/-- The canonical text of a path is in the grammar, with entries in place of the lists that have no others. -/
theorem text_chars {es : List Element} (hv : Valid es) (hr : ∀ e ∈ es, e.Readable) :
    Text (chars es) (es.map Element.collapse) := by
  obtain ⟨e, rest, rfl⟩ := List.exists_cons_of_ne_nil hv.ne_nil
  have hrest : Segments (rest.flatMap (Element.chars true)) (rest.map Element.collapse) :=
    segments_chars fun e he =>
      ⟨hv.valid_of_mem e (List.mem_cons_of_mem _ he), hr e (List.mem_cons_of_mem _ he),
        fun h => hv.root_not_mem_tail (h ▸ he)⟩
  have hve := hv.valid_of_mem e List.mem_cons_self
  have hre := hr e List.mem_cons_self
  have hsegment : Segment (e.chars false) e.collapse → Text (chars (e :: rest)) ((e :: rest).map Element.collapse) := by
    intro hs
    obtain ⟨c, s, hcons, -⟩ := hs.exists_cons
    refine .headless ?_ (.cons hs hrest)
    rw [chars, hcons]
    exact List.cons_ne_nil _ _
  by_cases hroot : e = .root
  · subst hroot
    exact .root hrest
  · cases hd : e.isDescent with
    | true =>
      cases e with
      | descent inner => exact hsegment (segment_chars_descent hve hre false)
      | _ => cases hd
    | false =>
      rcases name_or_bracket false hve hre hroot hd with ⟨s, hs, heq, hsign⟩ | hs
      · rw [chars, heq]
        exact .named hs (hsign rfl) hrest
      · exact hsegment (.bracket hs)

/-! ### What the grammar names -/

private theorem le_of_index {s : List Char} {n : Nat} (h : Index s n) : n ≤ maxIndex := by
  cases h with
  | @mk i _ _ hi =>
    have hlt := i.toInt_lt
    simp only [maxIndex]
    omega

private theorem le_of_listed {s : List Char} {ns : List Nat} (h : Listed Index ',' s ns) : ∀ n ∈ ns, n ≤ maxIndex := by
  have hpadded : ∀ {s n}, Padded Index s n → n ≤ maxIndex := by
    rintro _ _ ⟨-, hs, -⟩
    exact le_of_index hs
  induction h with
  | single hs => exact List.forall_mem_singleton.2 (hpadded hs)
  | cons hs _ ih => exact List.forall_mem_cons.2 ⟨hpadded hs, ih⟩

private theorem readable_of_name {s : List Char} (h : Name s e) : e.Readable := by
  cases h <;> trivial

private theorem readable_of_bracket {s : List Char} (h : Bracket s e) : e.Readable := by
  obtain ⟨-, hs, -⟩ := h
  cases hs with
  | anyIndex | property | properties => trivial
  | expression _ ht | filter _ _ ht =>
    unfold Element.Readable
    rw [String.toList_ofList]
    exact ht
  | numbers hs =>
    cases hs with
    | index hs => exact le_of_index hs
    | indexes hs => exact fun n hn => le_of_listed hs n (SortedSet.mem_of_mem_ofList hn)
    | slice | steppedSlice => trivial

private theorem readable_of_segments {s : List Char} {es : List Element} (h : Segments s es) :
    ∀ e ∈ es, e.Readable := by
  induction h with
  | nil => exact fun _ he => by cases he
  | cons hs _ ih =>
    refine List.forall_mem_cons.2 ⟨?_, ih⟩
    cases hs with
    | name hs | descentToName hs => exact (readable_of_name hs :)
    | bracket hs | dotBracket hs | descentToBracket hs => exact (readable_of_bracket hs :)

/-- The elements that the grammar names are in reach, and their texts are balanced. -/
theorem readable_of_text {s : List Char} {es : List Element} (h : Text s es) : ∀ e ∈ es, e.Readable := by
  cases h with
  | root hs => exact List.forall_mem_cons.2 ⟨trivial, readable_of_segments hs⟩
  | named hs _ ht => exact List.forall_mem_cons.2 ⟨readable_of_name hs, readable_of_segments ht⟩
  | headless _ hs => exact readable_of_segments hs

end Sequence

end PathContainment
