import Mathlib.Data.List.Forall2
import PathContainment.Json.Basic

/-!
# The text of JSON values

The text of a string, of a list and of an object, without a look at how they are written: a string is spelled character
by character (`Json.IsString`), and every item of a list (`Json.listText`) and every member of an object
(`Json.objectText`) stands on a line of its own.
-/

namespace PathContainment

/-- A list is related to its image, entry by entry, if every entry is to its own. -/
theorem forall₂_map_self {α β : Type} {R : α → β → Prop} {f : α → β} {l : List α} (h : ∀ a ∈ l, R a (f a)) :
    List.Forall₂ R l (l.map f) :=
  List.forall₂_map_right_iff.2 (List.forall₂_same.2 h)

namespace Json

/-! ### Strings -/

/-- What stands for a character in the text of a string. -/
inductive Spells : Char → String → Prop
  | mark : Spells '"' "\\\""
  | backslash : Spells '\\' "\\\\"
  | backspace : Spells '\x08' "\\b"
  | tab : Spells '\t' "\\t"
  | lineFeed : Spells '\n' "\\n"
  | formFeed : Spells '\x0c' "\\f"
  | carriageReturn : Spells '\r' "\\r"
  | control {c : Char} : c.toNat < 0x20 → c ∉ ['\x08', '\t', '\n', '\x0c', '\r'] →
      Spells c (String.ofList ['\\', 'u', '0', '0', Nat.digitChar (c.toNat / 16), Nat.digitChar (c.toNat % 16)])
  | plain {c : Char} : 0x20 ≤ c.toNat → c ≠ '"' → c ≠ '\\' → Spells c (String.singleton c)

/-- The text is that of the string `s`. -/
def IsString (s text : String) : Prop :=
  ∃ parts, List.Forall₂ Spells s.toList parts ∧ text = "\"" ++ String.join parts ++ "\""

private theorem hexDigits_of_lt {n : Nat} (h : n < 0x20) :
    hexDigits 4 n = ['0', '0', Nat.digitChar (n / 16), Nat.digitChar (n % 16)] := by
  have hall : ∀ n : Fin 0x20, hexDigits 4 n = ['0', '0', Nat.digitChar (n / 16), Nat.digitChar (n % 16)] := by decide
  exact hall ⟨n, h⟩

theorem spells_escapeChar (c : Char) : Spells c (String.ofList (escapeChar c)) := by
  unfold escapeChar
  split
  · exact .mark
  · exact .backslash
  · exact .backspace
  · exact .tab
  · exact .lineFeed
  · exact .formFeed
  · exact .carriageReturn
  · rename_i hmark hbackslash hbackspace htab hlineFeed hformFeed hreturn
    split
    · rename_i hlt
      rw [hexDigits_of_lt hlt]
      refine .control hlt ?_
      simpa using ⟨hbackspace, htab, hlineFeed, hformFeed, hreturn⟩
    · rename_i hle
      rw [← String.singleton_eq_ofList]
      exact .plain (Nat.le_of_not_lt hle) hmark hbackslash

theorem isString_quote (s : String) : IsString s (String.ofList (quote s)) := by
  refine ⟨s.toList.map fun c => String.ofList (escapeChar c), forall₂_map_self fun c _ => spells_escapeChar c, ?_⟩
  rw [← String.toList_inj]
  simp [quote, String.toList_join, List.flatMap_map]

/-- A text in which nothing has to be spelled stands between the marks as it is. -/
theorem quote_of_plain {s : String} (h : ∀ c ∈ s.toList, escapeChar c = [c]) :
    String.ofList (quote s) = "\"" ++ s ++ "\"" := by
  rw [← String.toList_inj, quote, List.flatMap_congr h, List.flatMap_singleton']
  simp

/-! ### Lists and objects -/

/-- What stands between two brackets: each of the parts on a line of its own, indented by two blanks more than the
brackets are. -/
def blockText (opening closing indent : String) : List String → String
  | [] => opening ++ closing
  | part :: parts =>
    opening ++ "\n" ++ indent ++ "  " ++ part ++ String.join (parts.map fun part => ",\n" ++ indent ++ "  " ++ part) ++
      "\n" ++ indent ++ closing

/-- The text of a list of items with the given texts. -/
def listText (indent : String) (items : List String) : String := blockText "[" "]" indent items

/-- The text of an object with the given names and the texts of what they name. -/
def objectText (indent : String) (members : List (String × String)) : String :=
  blockText "\x7b" "\x7d" indent (members.map fun (name, text) => "\"" ++ name ++ "\": " ++ text)

/-- The indentation of a level. -/
def indentation (level : Nat) : String := String.ofList (List.replicate (2 * level) ' ')

section
variable (level : Nat) (items : List Json) (members : List (String × Json))

private theorem newline_succ : newline (level + 1) = newline level ++ [' ', ' '] := by
  rw [newline, newline, Nat.mul_add, List.replicate_add]
  rfl

private theorem prettyItems_eq :
    prettyItems level items = items.flatMap fun item => ',' :: newline (level + 1) ++ prettyChars (level + 1) item := by
  induction items with
  | nil => rw [prettyItems]; rfl
  | cons item items ih => rw [prettyItems, ih]; rfl

private theorem prettyMembers_eq :
    prettyMembers level members = members.flatMap fun (key, value) =>
      ',' :: newline (level + 1) ++ quote key ++ ": ".toList ++ prettyChars (level + 1) value := by
  induction members with
  | nil => rw [prettyMembers]; rfl
  | cons member members ih => rw [prettyMembers, ih]; rfl

theorem prettyChars_string (s : String) : prettyChars level (string s) = quote s := by
  simp only [prettyChars, scalarChars]

theorem prettyChars_bool (b : Bool) : prettyChars level (bool b) = (truthWord b).toList := by
  simp only [prettyChars, scalarChars]

theorem prettyChars_array :
    String.ofList (prettyChars level (array items)) =
      listText (indentation level) (items.map fun item => String.ofList (prettyChars (level + 1) item)) := by
  rw [← String.toList_inj]
  cases items with
  | nil => simp [prettyChars, scalarChars, listText, blockText]
  | cons item items =>
    rw [prettyChars, prettyItems_eq, newline_succ]
    simp [newline, listText, blockText, indentation, String.toList_join, List.flatMap_map]

private theorem prettyChars_object_eq_blockText :
    String.ofList (prettyChars level (object members)) =
      blockText "\x7b" "\x7d" (indentation level) (members.map fun (name, value) =>
        String.ofList (quote name) ++ ": " ++ String.ofList (prettyChars (level + 1) value)) := by
  rw [← String.toList_inj]
  cases members with
  | nil => simp [prettyChars, scalarChars, blockText]
  | cons member members =>
    rw [prettyChars, prettyMembers_eq, newline_succ]
    simp [newline, blockText, indentation, String.toList_join, List.flatMap_map]

theorem prettyChars_object (h : ∀ name ∈ members.map (·.1), ∀ c ∈ name.toList, escapeChar c = [c]) :
    String.ofList (prettyChars level (object members)) =
      objectText (indentation level)
        (members.map fun (name, value) => (name, String.ofList (prettyChars (level + 1) value))) := by
  rw [prettyChars_object_eq_blockText, objectText, List.map_map]
  refine congrArg (blockText _ _ _) (List.map_congr_left fun member hmember => ?_)
  show String.ofList (quote member.1) ++ ": " ++ _ = "\"" ++ member.1 ++ "\": " ++ _
  rw [quote_of_plain (h member.1 (List.mem_map_of_mem hmember))]
  simp only [String.append_assoc]
  rfl

end

end Json

end PathContainment
