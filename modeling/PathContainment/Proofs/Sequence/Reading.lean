import PathContainment.Proofs.Sequence.Names
import PathContainment.Proofs.Sequence.Numbers

/-!
# Reading follows the grammar

Each reader takes from the front of the text what the grammar puts there, and leaves the rest. In one direction, what
is read has been in the text in that form; in the other, a form that the grammar allows is read again, whatever comes
after it. For a name that is so because the text goes on with a segment or ends, for the content of a bracket because
the closing bracket follows. Together the texts that are read are those of the grammar, and their elements the ones
that the grammar names (`read_eq_ok_iff`).
-/

namespace PathContainment.Sequence

open Grammar

variable {size : Nat} {s t r : List Char} {e : Element}

theorem expect_eq_ok_iff {c : Char} (hc : isBlank c = false) :
    expect size c s = .ok r ↔ ∃ l, Blanks l ∧ s = l ++ c :: r := by
  constructor
  · intro h
    obtain ⟨l, hl, heq⟩ := exists_skipBlank s
    unfold expect at h
    split at h
    · rename_i d rest hs
      split at h
      · rename_i hd
        cases h
        exact ⟨l, hl, by rw [heq, hs, hd]⟩
      · cases h
    · cases h
  · rintro ⟨l, hl, rfl⟩
    unfold expect
    rw [skipBlank_append hl, skipBlank_cons hc]
    exact if_pos rfl

/-! ### Texts in parentheses -/

theorem checkText_eq_ok_iff {text : String} : Element.checkText text = .ok () ↔ text.toList ≠ [] := by
  unfold Element.checkText
  split
  · rename_i h
    exact iff_of_false (fun h => by cases h) (by simpa using h)
  · rename_i h
    exact iff_of_true rfl (by simpa using h)

/-- Expressions and filters are built alike. -/
private theorem ofText_eq_ok_iff {f : String → Element} :
    (do Element.checkText (String.ofList t); return f (String.ofList t)) = Except.ok e ↔
      t ≠ [] ∧ e = f (String.ofList t) := by
  have hcheck : Element.checkText (String.ofList t) = .ok () ↔ t ≠ [] := by
    rw [checkText_eq_ok_iff, String.toList_ofList]
  rw [← hcheck]
  constructor
  · intro h
    obtain ⟨⟨⟩, ht, h⟩ := bind_eq_ok_iff.1 h
    cases h
    exact ⟨ht, rfl⟩
  · rintro ⟨ht, rfl⟩
    exact bind_eq_ok_iff.2 ⟨(), ht, rfl⟩

private theorem closed_eq_ok_iff {build : String → Except PathError Element} :
    closed size build s = .ok (e, r) ↔
      ∃ t l, Balanced t ∧ Blanks l ∧ s = t ++ ')' :: (l ++ ']' :: r) ∧ build (String.ofList t) = .ok e := by
  unfold closed
  constructor
  · intro h
    split at h
    · cases h
    · rename_i t rest hp
      obtain ⟨rfl, ht⟩ := parenthesized_eq_some_iff.1 hp
      obtain ⟨r', hr, h⟩ := bind_eq_ok_iff.1 h
      obtain ⟨e', he, h⟩ := bind_eq_ok_iff.1 h
      cases h
      obtain ⟨l, hl, rfl⟩ := (expect_eq_ok_iff (by decide)).1 hr
      exact ⟨t, l, ht, hl, rfl, admitted_eq_ok_iff.1 he⟩
  · rintro ⟨t, l, ht, hl, rfl, he⟩
    rw [parenthesized_eq_some_iff.2 ⟨rfl, ht⟩]
    refine bind_eq_ok_iff.2 ⟨r, (expect_eq_ok_iff (by decide)).2 ⟨l, hl, rfl⟩, ?_⟩
    exact bind_eq_ok_iff.2 ⟨e, admitted_eq_ok_iff.2 he, rfl⟩

/-! ### Brackets -/

private theorem exists_content_of_bracket (h : bracket size s = .ok (e, r)) :
    ∃ t, Padded Content t e ∧ s = t ++ ']' :: r := by
  obtain ⟨l, hl, heq⟩ := exists_skipBlank s
  unfold bracket at h
  split at h
  · cases h
  · rename_i rest hs
    obtain ⟨r', hr, h⟩ := bind_eq_ok_iff.1 h
    cases h
    obtain ⟨l', hl', rfl⟩ := (expect_eq_ok_iff (by decide)).1 hr
    exact ⟨_, .mk hl .anyIndex hl', by rw [heq, hs]; simp⟩
  · rename_i rest hs
    obtain ⟨⟨names, r₁⟩, hnames, h⟩ := bind_eq_ok_iff.1 h
    obtain ⟨r₂, hr, h⟩ := bind_eq_ok_iff.1 h
    obtain ⟨e', he, h⟩ := bind_eq_ok_iff.1 h
    cases h
    obtain ⟨t, ht, hsplit⟩ := exists_listed_of_quotedNames hnames
    obtain ⟨l', hl', rfl⟩ := (expect_eq_ok_iff (by decide)).1 hr
    exact ⟨_, .mk hl (content_of_ofNames ht (admitted_eq_ok_iff.1 he)) hl', by rw [heq, hs, hsplit]; simp⟩
  · rename_i rest hs
    obtain ⟨t, l', ht, hl', rfl, he⟩ := closed_eq_ok_iff.1 h
    obtain ⟨hne, rfl⟩ := ofText_eq_ok_iff.1 he
    exact ⟨_, .mk hl (.expression hne ht) hl', by rw [heq, hs]; simp⟩
  · rename_i rest hs
    obtain ⟨l₁, hl₁, heq₁⟩ := exists_skipBlank rest
    split at h
    · rename_i rest' hs'
      obtain ⟨t, l', ht, hl', rfl, he⟩ := closed_eq_ok_iff.1 h
      obtain ⟨hne, rfl⟩ := ofText_eq_ok_iff.1 he
      exact ⟨_, .mk hl (.filter hl₁ hne ht) hl', by rw [heq, hs, heq₁, hs']; simp⟩
    · cases h
  · cases h
  · split at h
    · cases h
    · rename_i hd
      obtain ⟨e', he, h⟩ := bind_eq_ok_iff.1 h
      cases h
      obtain ⟨hsplit, -⟩ := eq_append_of_dropWhile_ne hd
      obtain ⟨l₁, l₂, hl₁, hl₂, htrim⟩ := exists_trim ((skipBlank s).takeWhile (· ≠ ']'))
      refine ⟨_, .mk (hl.append hl₁) (.numbers (ofNumbers_eq_ok_iff.1 he)) hl₂, ?_⟩
      rw [List.append_assoc l, List.append_assoc l, ← htrim, List.append_assoc, ← hsplit]
      exact heq

private theorem bracket_append {l : List Char} (hl : Blanks l) (s : List Char) :
    bracket size (l ++ s) = bracket size s := by
  unfold bracket
  rw [skipBlank_append hl]

private theorem bracket_filter (hs : skipBlank s = '(' :: t) :
    bracket size ('?' :: s) = closed size Element.mkFilter t := by
  unfold bracket
  rw [skipBlank_cons (by decide)]
  simp only [hs]

/-- White space in front of a list of quoted names and behind it is taken over by its first and its last entry. -/
private theorem listed_append_right {l : List Char} {names : List String} (hl : Blanks l)
    (h : Listed QuotedName ',' s names) : Listed QuotedName ',' (s ++ l) names := by
  induction h with
  | single hs =>
    obtain ⟨hl', hs, hr⟩ := hs
    rw [List.append_assoc]
    exact .single (.mk hl' hs (hr.append hl))
  | cons hs _ ih =>
    rw [List.append_assoc, List.cons_append]
    exact .cons hs ih

private theorem exists_quote_of_listed {names : List String} (h : Listed QuotedName ',' s names) :
    ∃ l rest, Blanks l ∧ s = l ++ '\'' :: rest ∧ Listed QuotedName ',' ('\'' :: rest) names := by
  have hpadded : ∀ {p name}, Padded QuotedName p name →
      ∃ l rest, Blanks l ∧ p = l ++ '\'' :: rest ∧ Padded QuotedName ('\'' :: rest) name := by
    rintro _ _ @⟨l, _, r, _, hl, ⟨hq⟩, hr⟩
    exact ⟨l, _, hl, List.append_assoc .., Padded.mk .nil (QuotedName.mk hq) hr⟩
  cases h with
  | single hs =>
    obtain ⟨l, rest, hl, rfl, hquote⟩ := hpadded hs
    exact ⟨l, rest, hl, rfl, .single hquote⟩
  | cons hs ht =>
    obtain ⟨l, rest, hl, rfl, hquote⟩ := hpadded hs
    exact ⟨l, _, hl, List.append_assoc .., .cons hquote ht⟩

private theorem bracket_of_names {names : List String} (hs : Listed QuotedName ',' s names)
    (he : ofNames names = .ok e) {l : List Char} (hl : Blanks l) (r : List Char) :
    bracket size (s ++ l ++ ']' :: r) = .ok (e, r) := by
  obtain ⟨l', rest, hl', rfl, hquote⟩ := exists_quote_of_listed hs
  have hnames : quotedNames size ('\'' :: rest ++ (l ++ ']' :: r)) = .ok (names, ']' :: r) := by
    rw [← List.append_assoc]
    exact quotedNames_of_listed (listed_append_right hl hquote) r
  rw [List.append_assoc, List.append_assoc, bracket_append hl', List.cons_append]
  unfold bracket
  rw [skipBlank_cons (by decide)]
  refine bind_eq_ok_iff.2 ⟨_, hnames, bind_eq_ok_iff.2 ⟨r, ?_, bind_eq_ok_iff.2 ⟨e, admitted_eq_ok_iff.2 he, rfl⟩⟩⟩
  exact (expect_eq_ok_iff (by decide)).2 ⟨[], .nil, rfl⟩

/-- What has none of the other contents' characters in it is taken for numbers. -/
private theorem bracket_of_not_mem (hs : ∀ c ∈ ['*', '\'', '(', '?', ']'], c ∉ s)
    (hblank : ∃ c ∈ s, isBlank c = false) (he : ofNumbers (trim s) = .ok e) (r : List Char) :
    bracket size (s ++ ']' :: r) = .ok (e, r) := by
  obtain ⟨l, hl, heq⟩ := exists_skipBlank s
  have hskip : skipBlank (s ++ ']' :: r) = skipBlank s ++ ']' :: r := skipBlank_append_of_exists hblank _
  have hout : ∀ c ∈ ['*', '\'', '(', '?', ']'], c ∉ skipBlank s := fun c hc hm =>
    hs c hc ((List.dropWhile_sublist _).subset hm)
  have htake := takeWhile_ne_append (hout ']' (by decide)) r
  have hdrop := dropWhile_ne_append (hout ']' (by decide)) r
  have htrim : trim (skipBlank s) = trim s := by
    conv_rhs => rw [heq]
    exact (trim_append_left hl _).symm
  obtain ⟨c, rest, hrest⟩ : ∃ c rest, skipBlank s = c :: rest := by
    refine List.exists_cons_of_ne_nil fun hnil => ?_
    obtain ⟨c, hc, hb⟩ := hblank
    rw [List.dropWhile_eq_nil_iff.1 hnil c hc] at hb
    cases hb
  have hhead : ∀ d ∈ ['*', '\'', '(', '?', ']'], c ≠ d := by
    rintro d hd rfl
    exact hout c hd (by rw [hrest]; exact List.mem_cons_self)
  unfold bracket
  rw [hskip]
  rw [hrest] at htake hdrop ⊢
  rw [hrest] at htrim
  split
  case h_1 heq => cases heq
  case h_7 =>
    rw [hdrop, htake, htrim]
    exact bind_eq_ok_iff.2 ⟨e, he, rfl⟩
  -- the other contents begin with characters of their own
  all_goals
    rename_i heq
    cases heq
    exact absurd rfl (hhead _ (by decide))

/-- Numbers are read up to the closing bracket. -/
private theorem bracket_of_numbers (h : Numbers s e) {l l' : List Char} (hl : Blanks l) (hl' : Blanks l')
    (r : List Char) : bracket size (l ++ s ++ l' ++ ']' :: r) = .ok (e, r) := by
  refine bracket_of_not_mem (fun c hc hm => ?_) ?_ (ofNumbers_eq_ok_iff.2 ?_) r
  · have hc' : isBlank c = false := by
      simp only [List.mem_cons, List.not_mem_nil, or_false] at hc
      rcases hc with rfl | rfl | rfl | rfl | rfl <;> rfl
    simp only [List.mem_append] at hm
    rcases hm with (hm | hm) | hm
    · rw [hl c hm] at hc'
      cases hc'
    · exact not_mem_of_numbers h hc hm
    · rw [hl' c hm] at hc'
      cases hc'
  · obtain ⟨c, hc, hblank⟩ := exists_not_blank_of_numbers h
    exact ⟨c, by simp [hc], hblank⟩
  · rw [trim_append_right hl', trim_append_left hl]
    exact numbers_trim h

/-- The content of a bracket is read up to the closing bracket. -/
private theorem bracket_of_content (h : Padded Content t e) (r : List Char) :
    bracket size (t ++ ']' :: r) = .ok (e, r) := by
  obtain @⟨l, s, l', _, hl, hs, hl'⟩ := h
  cases hs with
  | numbers hs => exact bracket_of_numbers hs hl hl' r
  | anyIndex =>
    rw [List.append_assoc, List.append_assoc, bracket_append hl]
    exact bind_eq_ok_iff.2 ⟨r, (expect_eq_ok_iff (by decide)).2 ⟨l', hl', rfl⟩, rfl⟩
  | property hs =>
    rw [List.append_assoc l, List.append_assoc l, bracket_append hl]
    exact bracket_of_names hs (ofNames_singleton hs) hl' r
  | properties hs hnames =>
    rw [List.append_assoc l, List.append_assoc l, bracket_append hl]
    exact bracket_of_names hs (ofNames_of_two_le hs hnames) hl' r
  | expression hne ht =>
    rw [List.append_assoc, List.append_assoc, bracket_append hl]
    exact closed_eq_ok_iff.2 ⟨_, l', ht, hl', by simp, ofText_eq_ok_iff.2 ⟨hne, rfl⟩⟩
  | @filter l₁ t hl₁ hne ht =>
    rw [List.append_assoc, List.append_assoc, bracket_append hl]
    have hskip : skipBlank (l₁ ++ '(' :: t ++ [')'] ++ (l' ++ ']' :: r)) = '(' :: (t ++ ')' :: (l' ++ ']' :: r)) := by
      rw [List.append_assoc, List.append_assoc, skipBlank_append hl₁, List.cons_append, skipBlank_cons (by decide)]
      simp
    exact (bracket_filter hskip).trans (closed_eq_ok_iff.2 ⟨t, l', ht, hl', rfl, ofText_eq_ok_iff.2 ⟨hne, rfl⟩⟩)

/-! ### Segments -/

private theorem exists_bracket_of_bracket (h : bracket size s = .ok (e, r)) :
    ∃ t, Bracket t e ∧ '[' :: s = t ++ r := by
  obtain ⟨t, ht, rfl⟩ := exists_content_of_bracket h
  exact ⟨_, .mk ht, by simp⟩

/-- What a segment is read from is a segment of the grammar. -/
private theorem exists_segment_of_segment (h : segment size s = .ok (e, r)) : ∃ t, Segment t e ∧ s = t ++ r := by
  have hdots : ∀ {two s e}, afterDots size two s = .ok (e, r) →
      ∃ t, (Name t e ∨ Bracket t e) ∧ s = t ++ r := by
    intro two s e h
    unfold afterDots at h
    split at h
    · cases h
    · cases h
    · obtain ⟨t, ht, heq⟩ := exists_bracket_of_bracket h
      exact ⟨t, .inr ht, heq⟩
    · rename_i hnil hdot hbracket
      have hs : startsSegment s = false := by
        cases s with
        | nil => exact absurd rfl hnil
        | cons c s =>
          have hc : c ≠ '.' ∧ c ≠ '[' :=
            ⟨fun hc => hdot s (by rw [hc]), fun hc => hbracket s (by rw [hc])⟩
          simp [startsSegment, hc]
      obtain ⟨t, ht, heq, -⟩ := (name_eq_ok_iff hs).1 h
      exact ⟨t, .inl ht, heq⟩
  unfold segment at h
  split at h
  · obtain ⟨t, ht, heq⟩ := exists_bracket_of_bracket h
    exact ⟨t, .bracket ht, heq⟩
  · obtain ⟨⟨e', r'⟩, he, h⟩ := bind_eq_ok_iff.1 h
    cases h
    obtain ⟨t, ht | ht, rfl⟩ := hdots he
    · exact ⟨_, .descentToName ht, rfl⟩
    · exact ⟨_, .descentToBracket ht, rfl⟩
  · obtain ⟨t, ht | ht, rfl⟩ := hdots h
    · exact ⟨_, .name ht, rfl⟩
    · exact ⟨_, .dotBracket ht, rfl⟩
  · cases h

/-- A segment is read in front of the next one, or of the end of the text. -/
private theorem segment_of_segment (h : Segment t e) (hr : startsSegment r = true) :
    segment size (t ++ r) = .ok (e, r) := by
  have hname : ∀ {two t e}, Name t e → afterDots size two (t ++ r) = .ok (e, r) := by
    intro two t e ht
    have hs := ht.startsSegment_append r
    unfold afterDots
    split
    · rename_i heq
      rw [heq] at hs
      cases hs
    · rename_i heq
      rw [heq] at hs
      cases hs
    · rename_i heq
      rw [heq] at hs
      cases hs
    · exact (name_eq_ok_iff hs).2 ⟨t, ht, rfl, hr⟩
  have hbracket : ∀ {s e}, Padded Content s e → bracket size (s ++ [']'] ++ r) = .ok (e, r) := by
    intro s e hs
    rw [List.append_assoc]
    exact bracket_of_content hs r
  cases h with
  | name ht =>
    have hs := ht.startsSegment_append r
    unfold segment
    split
    · rename_i heq
      cases heq
    · rename_i heq
      rw [List.cons_append, List.cons.injEq] at heq
      rw [heq.2] at hs
      cases hs
    · rename_i heq
      cases heq
      exact hname ht
    · rename_i hdot
      exact (hdot _ rfl).elim
  | descentToName ht => exact bind_eq_ok_iff.2 ⟨_, hname ht, rfl⟩
  | bracket ht =>
    obtain ⟨hs⟩ := ht
    exact hbracket hs
  | dotBracket ht =>
    obtain ⟨hs⟩ := ht
    exact hbracket hs
  | descentToBracket ht =>
    obtain ⟨hs⟩ := ht
    exact bind_eq_ok_iff.2 ⟨_, hbracket hs, rfl⟩

/-! ### Whole texts -/

private theorem segments_of_read {es : List Element} (h : segments size s = .ok es) : Segments s es := by
  fun_induction segments size s generalizing es with
  | case1 =>
    cases h
    exact .nil
  | case2 => cases h
  | case3 c s e rest hs ih =>
    obtain ⟨es', hes, h⟩ := bind_eq_ok_iff.1 h
    cases h
    obtain ⟨t, ht, heq⟩ := exists_segment_of_segment hs
    rw [heq]
    exact .cons ht (ih hes)

private theorem segments_of_grammar {es : List Element} (h : Segments s es) : segments size s = .ok es := by
  induction h with
  | nil => rw [segments]
  | @cons s t e es hs ht ih =>
    have hread : segment size (s ++ t) = .ok (e, t) := segment_of_segment hs ht.startsSegment
    obtain ⟨c, rest, rfl, -⟩ := hs.exists_cons
    rw [List.cons_append] at hread ⊢
    rw [segments]
    split
    · rename_i heq
      rw [hread] at heq
      cases heq
    · rename_i heq
      rw [hread] at heq
      cases heq
      exact bind_eq_ok_iff.2 ⟨es, ih, rfl⟩

private theorem text_of_ofChars {es : List Element} (h : ofChars s = .ok es) : Text s es := by
  cases s with
  | nil => cases h
  | cons c rest =>
    unfold ofChars at h
    dsimp only at h
    split at h
    · rename_i hroot
      obtain ⟨es', hes, h⟩ := bind_eq_ok_iff.1 h
      cases h
      rw [hroot.1]
      exact .root (segments_of_read hes)
    · rename_i hroot
      split at h
      · exact .headless (List.cons_ne_nil _ _) (segments_of_read h)
      · rename_i hstart
        rw [Bool.not_eq_true] at hstart
        obtain ⟨⟨e, r⟩, he, h⟩ := bind_eq_ok_iff.1 h
        obtain ⟨es', hes, h⟩ := bind_eq_ok_iff.1 h
        cases h
        obtain ⟨t, ht, heq, hr⟩ := (name_eq_ok_iff hstart).1 he
        rw [heq]
        refine .named ht (fun ht => hroot ?_) (segments_of_read hes)
        rw [ht] at heq
        cases heq
        exact ⟨rfl, hr⟩

private theorem ofChars_of_text {es : List Element} (h : Text s es) : ofChars s = .ok es := by
  cases h with
  | root hs =>
    unfold ofChars
    dsimp only
    rw [if_pos ⟨rfl, hs.startsSegment⟩]
    exact bind_eq_ok_iff.2 ⟨_, segments_of_grammar hs, rfl⟩
  | @named s t e es hs hroot ht =>
    have hstart := hs.startsSegment_append t
    have hname : name (s ++ t).length (s ++ t) = .ok (e, t) :=
      (name_eq_ok_iff hstart).2 ⟨s, hs, rfl, ht.startsSegment⟩
    obtain ⟨c, rest, rfl⟩ := List.exists_cons_of_ne_nil hs.ne_nil
    -- a name that begins with the root's sign goes on after it
    have hsign : ¬(c = '$' ∧ startsSegment (rest ++ t) = true) := by
      rintro ⟨rfl, hrest⟩
      cases rest with
      | nil => exact hroot rfl
      | cons d rest =>
        have hd := hs.isNameChar d (by simp)
        simp [isNameChar] at hd
        simp [startsSegment, hd] at hrest
    rw [List.cons_append] at hstart hname ⊢
    unfold ofChars
    dsimp only
    rw [if_neg hsign, if_neg (by rw [hstart]; exact Bool.false_ne_true)]
    exact bind_eq_ok_iff.2 ⟨_, hname, bind_eq_ok_iff.2 ⟨es, segments_of_grammar ht, rfl⟩⟩
  | headless hne hs =>
    have hstart := hs.startsSegment
    obtain ⟨c, rest, rfl⟩ := List.exists_cons_of_ne_nil hne
    have hsign : ¬(c = '$' ∧ startsSegment rest = true) := by
      rintro ⟨rfl, -⟩
      cases hstart
    unfold ofChars
    dsimp only
    rw [if_neg hsign, if_pos hstart]
    exact segments_of_grammar hs

theorem ofChars_eq_ok_iff {es : List Element} : ofChars s = .ok es ↔ Text s es :=
  ⟨text_of_ofChars, ofChars_of_text⟩

/-- A text is read exactly if the grammar generates it, and then as the elements that the grammar names. -/
theorem read_eq_ok_iff (text : String) (es : List Element) : read text = .ok es ↔ Text text.toList es :=
  ofChars_eq_ok_iff

end PathContainment.Sequence
