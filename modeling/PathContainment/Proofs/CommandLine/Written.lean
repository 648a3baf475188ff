import PathContainment.Proofs.CommandLine.Session
import PathContainment.Proofs.Json.Text

/-!
# Written reports

What can be read in the output of a command, word for word: what the text format has for a report (`Report.IsText`), and
what the JSON format has for it in a list of reports (`Report.IsItem`). Both are said of what the report tells, the
verdict (`Report.HasVerdict`) and the canonical texts of paths, and not of how it is put into lines or into a JSON value.
The output is made of these parts (`Report.IsOutput`), for a report that stands alone (`Report.isOutput_textIn`) and for
a list of reports (`Report.isOutput_textOfList`).
-/

namespace PathContainment

/-- The word for a verdict in the output. -/
inductive Verdict.IsWord : Verdict → String → Prop
  | holds : IsWord holds "true"
  | unknown : IsWord unknown "unknown"
  | fails : IsWord fails "false"

/-- The word for a truth value in the output. -/
inductive IsTruthWord : Bool → String → Prop
  | true : IsTruthWord true "true"
  | false : IsTruthWord false "false"

theorem Verdict.isWord_word (v : Verdict) : v.IsWord v.word := by
  cases v with
  | holds => exact .holds
  | unknown => exact .unknown
  | fails => exact .fails

theorem isTruthWord_truthWord (b : Bool) : IsTruthWord b (truthWord b) := by
  cases b with
  | true => exact .true
  | false => exact .false

namespace Report

/-- The report is on a containment, and has the verdict on it. -/
inductive HasVerdict : Report → Verdict → Prop
  | containment {verdict : Verdict} : HasVerdict (.containment verdict) verdict
  | query {path : AnyPath} {verdict : Verdict} {containing : List AnyPath} :
      HasVerdict (.query path verdict containing) verdict

theorem verdict?_eq_some_iff {report : Report} {verdict : Verdict} :
    report.verdict? = some verdict ↔ report.HasVerdict verdict := by
  constructor
  · intro h
    cases report with
    | containment v =>
      cases h
      exact .containment
    | query path v containing =>
      cases h
      exact .query
    | normalForm path | kinds path => cases h
  · rintro (_ | _) <;> rfl

/-- The text tells of the report in the text format. A query has a line for the path, with the verdict on it, and below
it a line for every pattern that contains the path. -/
inductive IsText : Report → String → Prop
  | containment {verdict : Verdict} {word : String} :
      verdict.IsWord word → IsText (.containment verdict) (word ++ "\n")
  | query {path : AnyPath} {verdict : Verdict} {containing : List AnyPath} {word : String} :
      verdict.IsWord word →
        IsText (.query path verdict containing)
          (path.text ++ "\t" ++ word ++ "\n" ++
            String.join (containing.map fun pattern => "  " ++ pattern.text ++ "\n"))
  | normalForm {path : AnyPath} : IsText (.normalForm path) (path.text ++ "\n")
  | kinds {path : AnyPath} {absolute strict normalized : String} :
      IsTruthWord path.isAbsolute absolute → IsTruthWord path.isStrict strict → IsTruthWord path.isNormal normalized →
        IsText (.kinds path)
          (path.text ++ "\tabsolute=" ++ absolute ++ " strict=" ++ strict ++ " normalized=" ++ normalized ++ "\n")

/-- The text tells of the report as an item of a list in the JSON format. A query has an object with the path, the
verdict on it and the list of the patterns that contain the path. -/
inductive IsItem : Report → String → Prop
  | query {path : AnyPath} {verdict : Verdict} {containing : List AnyPath} {pathText word : String}
      {patternTexts : List String} :
      Json.IsString path.text pathText → verdict.IsWord word →
        List.Forall₂ (fun (pattern : AnyPath) text => Json.IsString pattern.text text) containing patternTexts →
          IsItem (.query path verdict containing)
            (Json.objectText "  " [("path", pathText), ("result", "\"" ++ word ++ "\""),
              ("matched", Json.listText "    " patternTexts)])
  | normalForm {path : AnyPath} {pathText : String} :
      Json.IsString path.text pathText → IsItem (.normalForm path) pathText
  | kinds {path : AnyPath} {pathText absolute strict normalized : String} :
      Json.IsString path.text pathText →
        IsTruthWord path.isAbsolute absolute → IsTruthWord path.isStrict strict → IsTruthWord path.isNormal normalized →
          IsItem (.kinds path)
            (Json.objectText "  " [("path", pathText), ("absolute", absolute), ("strict", strict),
              ("normalized", normalized)])

/-- The output tells of the reports: of one after the other in the text format, and in the JSON format in a list, or as
the word for the verdict if the only report is that on a containment. -/
inductive IsOutput : OutputFormat → List Report → String → Prop
  | text {reports : List Report} {texts : List String} :
      List.Forall₂ IsText reports texts → IsOutput .text reports (String.join texts)
  | word {verdict : Verdict} {word : String} :
      verdict.IsWord word → IsOutput .json [.containment verdict] ("\"" ++ word ++ "\"\n")
  | list {reports : List Report} {items : List String} :
      List.Forall₂ IsItem reports items → IsOutput .json reports (Json.listText "" items ++ "\n")

/-! ### Reports are written like this -/

theorem isText_text (report : Report) : report.IsText report.text := by
  cases report with
  | containment verdict =>
    have h : text (.containment verdict) = verdict.word ++ "\n" := by simp [text, lines]
    rw [h]
    exact .containment verdict.isWord_word
  | query path verdict containing =>
    have h : text (.query path verdict containing) = path.text ++ "\t" ++ verdict.word ++ "\n" ++
        String.join (containing.map fun pattern => "  " ++ pattern.text ++ "\n") := by
      rw [text, lines, List.map_cons, String.join_cons, List.map_map]
      rfl
    rw [h]
    exact .query verdict.isWord_word
  | normalForm path =>
    have h : text (.normalForm path) = path.text ++ "\n" := by simp [text, lines]
    rw [h]
    exact .normalForm
  | kinds path =>
    have h : text (.kinds path) = path.text ++ "\tabsolute=" ++ truthWord path.isAbsolute ++ " strict=" ++
        truthWord path.isStrict ++ " normalized=" ++ truthWord path.isNormal ++ "\n" := by simp [text, lines]
    rw [h]
    exact .kinds (isTruthWord_truthWord _) (isTruthWord_truthWord _) (isTruthWord_truthWord _)

/-- The text of a report as an item of a list. -/
def item (report : Report) : String := String.ofList (report.toJson.prettyChars 1)

private theorem prettyChars_path (level : Nat) (path : AnyPath) :
    String.ofList (path.toJson.prettyChars level) = String.ofList (Json.quote path.text) := by
  rw [Path.toJson, Json.prettyChars_string]

private theorem prettyChars_verdict (level : Nat) (verdict : Verdict) :
    String.ofList (verdict.toJson.prettyChars level) = "\"" ++ verdict.word ++ "\"" := by
  rw [Verdict.toJson, Json.prettyChars_string, Json.quote_of_plain]
  cases verdict <;> simp [Verdict.word, Json.escapeChar]

private theorem prettyChars_bool (level : Nat) (b : Bool) :
    String.ofList ((Json.bool b).prettyChars level) = truthWord b := by
  rw [Json.prettyChars_bool, String.ofList_toList]

theorem isItem_item {report : Report} (h : ∀ verdict, report ≠ .containment verdict) : report.IsItem report.item := by
  cases report with
  | containment verdict => exact absurd rfl (h verdict)
  | query path verdict containing =>
    let patternTexts := containing.map fun pattern => String.ofList (Json.quote pattern.text)
    have hitem : item (.query path verdict containing) =
        Json.objectText "  " [("path", String.ofList (Json.quote path.text)), ("result", "\"" ++ verdict.word ++ "\""),
          ("matched", Json.listText "    " patternTexts)] := by
      have hnames : ∀ name ∈ ["path", "result", "matched"], ∀ c ∈ name.toList, Json.escapeChar c = [c] := by
        simp [Json.escapeChar]
      rw [item, toJson, Json.prettyChars_object]
      · simp only [List.map_cons, List.map_nil, List.map_map, Json.prettyChars_array, prettyChars_path,
          prettyChars_verdict, Function.comp_def]
        rfl
      · exact hnames
    rw [hitem]
    exact .query (Json.isString_quote path.text) verdict.isWord_word
      (forall₂_map_self fun pattern _ => Json.isString_quote pattern.text)
  | normalForm path =>
    rw [item, toJson, prettyChars_path]
    exact .normalForm (Json.isString_quote path.text)
  | kinds path =>
    have hitem : item (.kinds path) =
        Json.objectText "  " [("path", String.ofList (Json.quote path.text)), ("absolute", truthWord path.isAbsolute),
          ("strict", truthWord path.isStrict), ("normalized", truthWord path.isNormal)] := by
      have hnames : ∀ name ∈ ["path", "absolute", "strict", "normalized"], ∀ c ∈ name.toList,
          Json.escapeChar c = [c] := by simp [Json.escapeChar]
      rw [item, toJson, Json.prettyChars_object]
      · simp only [List.map_cons, List.map_nil, prettyChars_path, prettyChars_bool]
        rfl
      · exact hnames
    rw [hitem]
    exact .kinds (Json.isString_quote path.text) (isTruthWord_truthWord _) (isTruthWord_truthWord _)
      (isTruthWord_truthWord _)

theorem isOutput_textIn (format : OutputFormat) (verdict : Verdict) :
    IsOutput format [.containment verdict] ((containment verdict).textIn format) := by
  cases format with
  | text =>
    have h : (containment verdict).text = String.join [(containment verdict).text] := by
      rw [String.join_cons, String.join_nil, String.append_empty]
    rw [textIn, h]
    exact .text (.cons (isText_text _) .nil)
  | json =>
    have h : (containment verdict).textIn .json = "\"" ++ verdict.word ++ "\"\n" := by
      rw [textIn, Json.pretty, toJson, prettyChars_verdict, String.append_assoc]
      rfl
    rw [h]
    exact .word verdict.isWord_word

theorem isOutput_textOfList (format : OutputFormat) {reports : List Report}
    (h : ∀ report ∈ reports, ∀ verdict, report ≠ .containment verdict) :
    IsOutput format reports (textOfList format reports) := by
  cases format with
  | text => exact .text (forall₂_map_self fun report _ => isText_text report)
  | json =>
    have hlist : textOfList .json reports = Json.listText "" (reports.map item) ++ "\n" := by
      rw [textOfList, Json.pretty, Json.prettyChars_array, List.map_map]
      rfl
    rw [hlist]
    exact .list (forall₂_map_self fun report hreport => isItem_item (h report hreport))

end Report

end PathContainment
