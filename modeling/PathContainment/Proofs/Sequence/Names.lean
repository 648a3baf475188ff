import PathContainment.Proofs.Element.NameSet
import PathContainment.Proofs.Sequence.Grammar

/-!
# Reading names

A name without quotes is read up to the character that begins the next segment (`name_eq_ok_iff`). Quoted names are
read one by one, each up to its closing quote, and what is read in this way is what the grammar lists
(`exists_listed_of_quotedNames`, `quotedNames_of_listed`).
-/

namespace PathContainment.Sequence

open Grammar

variable {size : Nat} {s t : List Char}

/-! ### Up to a character -/

theorem takeWhile_ne_append {c : Char} (hc : c ∉ s) (t : List Char) : (s ++ c :: t).takeWhile (· ≠ c) = s := by
  have hall : ∀ d ∈ s, decide (d ≠ c) = true := fun d hd => decide_eq_true fun h => hc (h ▸ hd)
  rw [List.takeWhile_append_of_pos hall]
  simp

theorem dropWhile_ne_append {c : Char} (hc : c ∉ s) (t : List Char) : (s ++ c :: t).dropWhile (· ≠ c) = c :: t := by
  have hall : ∀ d ∈ s, decide (d ≠ c) = true := fun d hd => decide_eq_true fun h => hc (h ▸ hd)
  rw [List.dropWhile_append_of_pos hall]
  simp

theorem eq_append_of_dropWhile_ne {c d : Char} (h : s.dropWhile (· ≠ c) = d :: t) :
    s = s.takeWhile (· ≠ c) ++ c :: t ∧ c ∉ s.takeWhile (· ≠ c) := by
  have hd : d = c := by
    have hhead := List.head?_dropWhile_not (· ≠ c) s
    rw [h] at hhead
    simpa using hhead
  refine ⟨?_, fun hm => by simpa using List.mem_takeWhile_imp hm⟩
  rw [← hd, ← h, hd]
  exact List.takeWhile_append_dropWhile.symm

/-! ### Names without quotes -/

theorem mkProperty_eq_ok_iff {name : String} {e : Element} :
    Element.mkProperty name = .ok e ↔ '\'' ∉ name.toList ∧ e = .property name := by
  rw [← Element.checkName_eq_ok_iff]
  constructor
  · intro h
    obtain ⟨⟨⟩, hname, h⟩ := bind_eq_ok_iff.1 h
    cases h
    exact ⟨hname, rfl⟩
  · rintro ⟨hname, rfl⟩
    exact bind_eq_ok_iff.2 ⟨(), hname, rfl⟩

private theorem ofName_eq_ok_iff {e : Element} (hne : s ≠ []) (hs : ∀ c ∈ s, isNameChar c = true) :
    ofName s = .ok e ↔ Name s e := by
  unfold ofName
  split
  · rename_i hany
    subst hany
    constructor
    · intro h
      cases h
      exact .any
    · intro h
      cases h with
      | any => rfl
      | property _ hany => exact absurd rfl hany
  · rename_i hany
    rw [mkProperty_eq_ok_iff, String.toList_ofList]
    constructor
    · rintro ⟨hquote, rfl⟩
      refine .property hne hany fun c hc => ?_
      have hname := hs c hc
      have hc' : c ≠ '\'' := fun h => hquote (h ▸ hc)
      simp_all [isNameChar]
    · intro h
      cases h with
      | any => exact absurd rfl hany
      | property _ _ hs => exact ⟨fun hm => hs _ hm (by decide), rfl⟩

/-- Where the characters of a name end, a segment begins, or the name is faulty. -/
private theorem startsSegment_dropWhile (h : ∀ rest, s.dropWhile isNameChar ≠ ']' :: rest) :
    startsSegment (s.dropWhile isNameChar) = true := by
  have hhead := List.head?_dropWhile_not isNameChar s
  cases hr : s.dropWhile isNameChar with
  | nil => rfl
  | cons c rest =>
    rw [hr] at h hhead
    have hc : c ≠ ']' := fun hc => h rest (by rw [hc])
    simp only [List.head?_cons, isNameChar, Bool.and_eq_false_iff, decide_eq_false_iff_not, not_not] at hhead
    simp only [startsSegment, Bool.or_eq_true, decide_eq_true_eq]
    exact hhead.resolve_right hc

/-- A name is read up to the next segment or to the end of the text. -/
theorem name_eq_ok_iff {r : List Char} {e : Element} (hs : startsSegment s = false) :
    name size s = .ok (e, r) ↔ ∃ t, Name t e ∧ s = t ++ r ∧ startsSegment r = true := by
  constructor
  · intro h
    unfold name at h
    split at h
    · cases h
    · rename_i hfault
      obtain ⟨e', he, h⟩ := bind_eq_ok_iff.1 h
      cases h
      have hr := startsSegment_dropWhile hfault
      have hne : s.takeWhile isNameChar ≠ [] := fun hnil => by
        rw [← List.takeWhile_append_dropWhile (p := isNameChar) (l := s), hnil, List.nil_append, hr] at hs
        cases hs
      exact ⟨_, (ofName_eq_ok_iff hne fun _ => List.mem_takeWhile_imp).1 (admitted_eq_ok_iff.1 he),
        List.takeWhile_append_dropWhile.symm, hr⟩
  · rintro ⟨t, ht, rfl, hr⟩
    have hend : r.takeWhile isNameChar = [] ∧ r.dropWhile isNameChar = r ∧ ∀ rest, r ≠ ']' :: rest := by
      cases r with
      | nil => exact ⟨rfl, rfl, fun _ h => by cases h⟩
      | cons c r =>
        have hc : c = '.' ∨ c = '[' := by simpa [startsSegment] using hr
        rcases hc with rfl | rfl <;> exact ⟨rfl, rfl, fun _ h => by cases h⟩
    have htake : (t ++ r).takeWhile isNameChar = t := by
      rw [List.takeWhile_append_of_pos ht.isNameChar, hend.1, List.append_nil]
    have hdrop : (t ++ r).dropWhile isNameChar = r := by
      rw [List.dropWhile_append_of_pos ht.isNameChar, hend.2.1]
    unfold name
    rw [htake, hdrop]
    split
    · rename_i rest
      exact absurd rfl (hend.2.2 rest)
    · refine bind_eq_ok_iff.2 ⟨e, admitted_eq_ok_iff.2 ?_, rfl⟩
      exact (ofName_eq_ok_iff ht.ne_nil ht.isNameChar).2 ht

/-! ### Quoted names -/

/-- A quoted name is read up to its closing quote, and after a comma the next one. -/
private theorem quotedNames_eq (hl : Blanks t) {name : List Char} (hname : '\'' ∉ name) (rest : List Char) :
    quotedNames size (t ++ '\'' :: name ++ '\'' :: rest) =
      match skipBlank rest with
      | ',' :: rest => do
        let (names, final) ← quotedNames size rest
        return (String.ofList name :: names, final)
      | final => .ok ([String.ofList name], final) := by
  have hskip : skipBlank (t ++ '\'' :: name ++ '\'' :: rest) = '\'' :: (name ++ '\'' :: rest) := by
    rw [List.append_assoc, skipBlank_append hl]
    exact skipBlank_cons (by decide) _
  rw [quotedNames]
  split
  · rename_i rest' heq
    rw [hskip] at heq
    cases heq
    rw [takeWhile_ne_append hname]
    split
    · rename_i heq
      rw [dropWhile_ne_append hname] at heq
      cases heq
    · rename_i heq
      rw [dropWhile_ne_append hname] at heq
      cases heq
      split
      · rename_i heq
        rw [heq]
        rfl
      · rename_i h
        split
        · rename_i heq
          exact absurd heq (h _)
        · rfl
  · rename_i h
    exact absurd hskip (h _)

/-- The next quoted name in front of the rest of the text. -/
private theorem exists_padded_of_quote {c : Char} {rest rest' : List Char} (hs : skipBlank s = '\'' :: rest)
    (hr : rest.dropWhile (· ≠ '\'') = c :: rest') :
    ∃ t, Padded QuotedName t (String.ofList (rest.takeWhile (· ≠ '\''))) ∧ s = t ++ skipBlank rest' := by
  obtain ⟨l, hl, heq⟩ := exists_skipBlank s
  obtain ⟨l', hl', heq'⟩ := exists_skipBlank rest'
  obtain ⟨hsplit, hquote⟩ := eq_append_of_dropWhile_ne hr
  refine ⟨_, .mk hl (.mk hquote) hl', ?_⟩
  rw [heq, hs, List.append_assoc, List.append_assoc, ← heq', List.append_cancel_left_eq]
  simpa using hsplit

/-- A quoted name in front of a text, taken apart. -/
private theorem exists_quote_of_padded {name : String} (hs : Padded QuotedName s name) (rest : List Char) :
    ∃ l q r, s ++ rest = l ++ '\'' :: q ++ '\'' :: (r ++ rest) ∧ name = String.ofList q ∧
      Blanks l ∧ '\'' ∉ q ∧ Blanks r := by
  obtain @⟨l, _, r, _, hl, ⟨hq⟩, hr⟩ := hs
  exact ⟨l, _, r, by simp, rfl, hl, hq, hr⟩

/-- The quoted names that are read are listed in the text in front of the rest. -/
theorem exists_listed_of_quotedNames {names : List String} {r : List Char}
    (h : quotedNames size s = .ok (names, r)) : ∃ t, Listed QuotedName ',' t names ∧ s = t ++ r := by
  fun_induction quotedNames size s generalizing names r with
  | case1 => cases h
  | case2 s rest hs c rest' hr rest'' hc ih =>
    obtain ⟨⟨names', final⟩, h', h⟩ := bind_eq_ok_iff.1 h
    cases h
    obtain ⟨t, ht, rfl⟩ := ih h'
    obtain ⟨p, hp, heq⟩ := exists_padded_of_quote hs hr
    exact ⟨p ++ ',' :: t, .cons hp ht, by rw [heq, hc]; simp⟩
  | case3 s rest hs c rest' hr =>
    cases h
    obtain ⟨p, hp, heq⟩ := exists_padded_of_quote hs hr
    exact ⟨p, .single hp, heq⟩
  | case4 => cases h

/-- Quoted names that are listed in front of the closing bracket are read. -/
theorem quotedNames_of_listed {names : List String} (h : Listed QuotedName ',' t names) (r : List Char) :
    quotedNames size (t ++ ']' :: r) = .ok (names, ']' :: r) := by
  induction h with
  | single hs =>
    obtain ⟨l, q, r', heq, rfl, hl, hq, hr⟩ := exists_quote_of_padded hs (']' :: r)
    rw [heq, quotedNames_eq hl hq, skipBlank_append hr, skipBlank_cons (by decide)]
    rfl
  | @cons s t name names hs _ ih =>
    obtain ⟨l, q, r', heq, rfl, hl, hq, hr⟩ := exists_quote_of_padded hs (',' :: t ++ ']' :: r)
    rw [List.append_assoc, heq, quotedNames_eq hl hq, skipBlank_append hr, List.cons_append,
      skipBlank_cons (by decide)]
    exact bind_eq_ok_iff.2 ⟨_, ih, rfl⟩

/-! ### The element that names denote -/

theorem mkProperties_eq_ok {names : List String} (hne : names ≠ []) (h : ∀ name ∈ names, '\'' ∉ name.toList) :
    Element.mkProperties names = .ok (.properties (.ofList names)) := by
  refine bind_eq_ok_iff.2 ⟨(), ?_, rfl⟩
  have hempty : (SortedSet.ofList names).isEmpty = false := by
    rw [SortedSet.isEmpty_ofList, List.isEmpty_eq_false_iff]
    exact hne
  rw [Element.checkNames, hempty]
  exact Element.checkEach_eq_ok_iff.2 fun name hname => h name (SortedSet.mem_of_mem_ofList hname)

private theorem quote_not_mem_of_listed {names : List String} (h : Listed QuotedName ',' t names) :
    ∀ name ∈ names, '\'' ∉ name.toList := by
  have hstep : ∀ {s name}, Padded QuotedName s name → '\'' ∉ name.toList := by
    rintro s name @⟨l, _, r, _, hl, ⟨hq⟩, hr⟩
    rw [String.toList_ofList]
    exact hq
  induction h with
  | single hs => exact List.forall_mem_singleton.2 (hstep hs)
  | cons hs _ ih => exact List.forall_mem_cons.2 ⟨hstep hs, ih⟩

theorem ofNames_singleton {name : String} (h : Listed QuotedName ',' t [name]) :
    ofNames [name] = .ok (.property name) :=
  mkProperty_eq_ok_iff.2 ⟨quote_not_mem_of_listed h name (by simp), rfl⟩

theorem ofNames_of_two_le {names : List String} (h : Listed QuotedName ',' t names) (hnames : 2 ≤ names.length) :
    ofNames names = .ok (.properties (.ofList names)) := by
  have hquote := quote_not_mem_of_listed h
  match names with
  | a :: b :: names => exact mkProperties_eq_ok (List.cons_ne_nil _ _) hquote

/-- The element that quoted names denote is the one the grammar says. -/
theorem content_of_ofNames {names : List String} {e : Element} (h : Listed QuotedName ',' t names)
    (he : ofNames names = .ok e) : Content t e := by
  match names with
  | [name] =>
    rw [ofNames_singleton h] at he
    cases he
    exact .property h
  | a :: b :: names =>
    rw [ofNames_of_two_le h (by simp)] at he
    cases he
    exact .properties h (by simp)

end PathContainment.Sequence
