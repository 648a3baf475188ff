import PathContainment.Proofs.Sequence.Balance
import PathContainment.Proofs.Text.Decimal

/-!
# The grammar of texts

The texts that describe sequences of elements, given by rules and without regard to how they are read. Each rule is a
relation between a text and what it denotes. A text is an optional head followed by segments:

* the head is `$` for the root, or a name; without a head there is at least one segment;
* a segment is a name after one or two dots, or a bracket, which one or two dots may precede; two dots mean recursive
  descent, and one dot in front of a bracket means nothing;
* a name has no dots, square brackets or single quotes in it and is not empty; `*` denotes all properties;
* a bracket holds `*`, single-quoted names, a parenthesized text with or without `?` in front of it, a number, a list
  of at least two numbers, or the two or three parts of a slice, which may be left out one by one; white space may
  stand around the content and around every entry.

A segment begins with a dot or an opening bracket, neither of which a name has in it, so that a name ends where the
next segment begins, or with the text.
-/

namespace PathContainment.Grammar

/-! ### White space and separators -/

section
variable {α : Type} (X : List Char → α → Prop)

/-- A text of the given kind with white space around it. -/
inductive Padded : List Char → α → Prop
  | mk {l s r : List Char} {a : α} (hl : Blanks l) (hs : X s a) (hr : Blanks r) : Padded (l ++ s ++ r) a

/-- One or more texts of the given kind, with a separator between them and white space around them. -/
inductive Listed (separator : Char) : List Char → List α → Prop
  | single {s : List Char} {a : α} (hs : Padded X s a) : Listed separator s [a]
  | cons {s t : List Char} {a : α} {as : List α} (hs : Padded X s a) (ht : Listed separator t as) :
      Listed separator (s ++ separator :: t) (a :: as)

variable {X}

theorem Padded.of {s : List Char} {a : α} (hs : X s a) : Padded X s a := by
  simpa using Padded.mk .nil hs .nil

end

/-! ### Names and numbers -/

/-- A name without quotes. -/
inductive Name : List Char → Element → Prop
  | any : Name ['*'] .anyProperty
  | property {s : List Char} (hne : s ≠ []) (hany : s ≠ ['*']) (hs : ∀ c ∈ s, c ∉ ['.', '[', ']', '\'']) :
      Name s (.property (String.ofList s))

/-- A name in single quotes. -/
inductive QuotedName : List Char → String → Prop
  | mk {s : List Char} (hs : '\'' ∉ s) : QuotedName ('\'' :: s ++ ['\'']) (String.ofList s)

/-- A number that is not negative. -/
inductive Index : List Char → Nat → Prop
  | mk {s : List Char} {i : Int64} {n : Nat} (hs : Decimal.Number s i) (hi : i.toInt = n) : Index s n

/-- A number or nothing. -/
inductive Part : List Char → Option Int64 → Prop
  | absent : Part [] none
  | given {s : List Char} {i : Int64} (hs : Decimal.Number s i) : Part s (some i)

/-! ### Brackets -/

/-- Numbers between brackets. The step of a slice is `1` unless it is given, and it is not `0`. -/
inductive Numbers : List Char → Element → Prop
  | index {s : List Char} {n : Nat} (hs : Index s n) : Numbers s (.index n)
  | indexes {s : List Char} {ns : List Nat} (hs : Listed Index ',' s ns) (hns : 2 ≤ ns.length) :
      Numbers s (.indexes (.ofList ns))
  | slice {s : List Char} {start stop : Option Int64} (hs : Listed Part ':' s [start, stop]) :
      Numbers s (.slice { start, stop, step := 1, step_ne_zero := by decide })
  | steppedSlice {s : List Char} {start stop step : Option Int64} (hs : Listed Part ':' s [start, stop, step])
      (hstep : step.getD 1 ≠ 0) : Numbers s (.slice { start, stop, step := step.getD 1, step_ne_zero := hstep })

/-- What stands between brackets. -/
inductive Content : List Char → Element → Prop
  | anyIndex : Content ['*'] .anyIndex
  | property {s : List Char} {name : String} (hs : Listed QuotedName ',' s [name]) : Content s (.property name)
  | properties {s : List Char} {names : List String} (hs : Listed QuotedName ',' s names)
      (hnames : 2 ≤ names.length) : Content s (.properties (.ofList names))
  | expression {t : List Char} (hne : t ≠ []) (ht : Sequence.Balanced t) :
      Content ('(' :: t ++ [')']) (.expression (String.ofList t))
  | filter {l t : List Char} (hl : Blanks l) (hne : t ≠ []) (ht : Sequence.Balanced t) :
      Content ('?' :: l ++ '(' :: t ++ [')']) (.filter (String.ofList t))
  | numbers {s : List Char} {e : Element} (hs : Numbers s e) : Content s e

inductive Bracket : List Char → Element → Prop
  | mk {s : List Char} {e : Element} (hs : Padded Content s e) : Bracket ('[' :: s ++ [']']) e

/-! ### Segments and whole texts -/

inductive Segment : List Char → Element → Prop
  | name {s : List Char} {e : Element} (hs : Name s e) : Segment ('.' :: s) e
  | descentToName {s : List Char} {e : Element} (hs : Name s e) : Segment ('.' :: '.' :: s) (.descent e)
  | bracket {s : List Char} {e : Element} (hs : Bracket s e) : Segment s e
  | dotBracket {s : List Char} {e : Element} (hs : Bracket s e) : Segment ('.' :: s) e
  | descentToBracket {s : List Char} {e : Element} (hs : Bracket s e) : Segment ('.' :: '.' :: s) (.descent e)

inductive Segments : List Char → List Element → Prop
  | nil : Segments [] []
  | cons {s t : List Char} {e : Element} {es : List Element} (hs : Segment s e) (ht : Segments t es) :
      Segments (s ++ t) (e :: es)

/-- A text that describes a sequence of elements. -/
inductive Text : List Char → List Element → Prop
  | root {s : List Char} {es : List Element} (hs : Segments s es) : Text ('$' :: s) (.root :: es)
  | named {s t : List Char} {e : Element} {es : List Element} (hs : Name s e) (hroot : s ≠ ['$'])
      (ht : Segments t es) : Text (s ++ t) (e :: es)
  | headless {s : List Char} {es : List Element} (hne : s ≠ []) (hs : Segments s es) : Text s es

/-! ### Where a segment begins -/

variable {s : List Char} {e : Element} {es : List Element}

theorem Segment.exists_cons (h : Segment s e) : ∃ c rest, s = c :: rest ∧ (c = '.' ∨ c = '[') := by
  cases h with
  | name | descentToName | dotBracket | descentToBracket => exact ⟨_, _, rfl, .inl rfl⟩
  | bracket hs =>
    cases hs
    exact ⟨_, _, rfl, .inr rfl⟩

theorem Segments.startsSegment (h : Segments s es) : Sequence.startsSegment s = true := by
  cases h with
  | nil => rfl
  | cons hs _ =>
    obtain ⟨c, rest, rfl, hc⟩ := hs.exists_cons
    simpa [Sequence.startsSegment] using hc

theorem Name.isNameChar (h : Name s e) : ∀ c ∈ s, Sequence.isNameChar c = true := by
  cases h with
  | any => exact fun c hc => by rw [List.mem_singleton.1 hc]; rfl
  | property hne hany hs =>
    intro c hc
    have hout := hs c hc
    simp only [List.mem_cons, List.not_mem_nil, or_false, not_or] at hout
    simp [Sequence.isNameChar, hout]

theorem Name.ne_nil (h : Name s e) : s ≠ [] := by
  cases h with
  | any => exact List.cons_ne_nil _ _
  | property hne => exact hne

/-- A name does not begin as a segment does. -/
theorem Name.startsSegment_append (h : Name s e) (t : List Char) : Sequence.startsSegment (s ++ t) = false := by
  obtain ⟨c, rest, rfl⟩ := List.exists_cons_of_ne_nil h.ne_nil
  have hc := h.isNameChar c (by simp)
  simp only [Sequence.isNameChar, Bool.and_eq_true, decide_eq_true_eq] at hc
  simp [Sequence.startsSegment, hc.1]

end PathContainment.Grammar
