import PathContainment.Proofs.CommandLine.Session
import PathContainment.Proofs.CommandLine.Written
import PathContainment.Proofs.Except
import PathContainment.Proofs.Pattern.File
import PathContainment.Proofs.Pattern.Opacity

/-!
# Outcomes of commands

A command that fails writes nothing, and one that does not fail writes a report on every path it was asked about
(`Request.outcome_run`). Four things come together here.

* (order) All reports of a command are there before the first one is written, whatever the command and the format
  (`Session.delivers_session`).
* (reports) They are those on its texts, one by one, and the report of a query is what the stored patterns say
  (`Command.forall₂_isReport_of_reports`).
* (writing) What is written tells of these reports, and of nothing else (`Command.isOutput_textOf`).
* (failing) They are missing exactly when a text describes no path, or a query has no patterns
  (`Command.fails_of_reports`, `Command.not_fails_of_reports`).
-/

namespace PathContainment

namespace Command

/-- The reports of a command, which are not written yet. -/
def reports (settings : Settings) (found : Except ReadFault ByteArray) (command : Command) :
    Except CommandError (List Report) :=
  match command with
  | containment pattern path => do
    let pattern ← readPath pattern
    return [.containment (pattern.contains (← readPath path))]
  | query _ asWritten paths => do
    let set ← patterns (command.source? settings) found (!asWritten && settings.normalizePatterns)
    return (← readPaths paths).map (report set)
  | normalize paths => return (← readPaths paths).map fun path => .normalForm path.normalForm
  | check paths => return (← readPaths paths).map .kinds

/-- What a command writes that has the given reports. -/
def textOf (format : OutputFormat) (reports : List Report) : Command → String
  | containment .. => String.join (reports.map (Report.textIn format))
  | query .. | normalize .. | check .. => Report.textOfList format reports

end Command

/-! ### First the reports, then the writing -/

namespace Session

/-- The session has all the reports before it writes. If they cannot be found out, it ends as it began, and otherwise
it writes them all. -/
def Delivers (session : Session Bool) (unknownCounts : Bool) (text : List Report → String)
    (reports : Except CommandError (List Report)) : Prop :=
  ∀ written, session.result written =
    match reports with
    | .ok reports => (.ok (reports.all (·.counts unknownCounts)), written ++ text reports)
    | .error e => (.error e, written)

variable {unknownCounts : Bool} {text : List Report → String}

theorem delivers_bind {x : Except CommandError α} {f : α → Session Bool} {g : α → Except CommandError (List Report)}
    (h : ∀ a, (f a).Delivers unknownCounts text (g a)) :
    (liftM x >>= f : Session Bool).Delivers unknownCounts text (x >>= g) := by
  intro written
  rw [result_liftM_bind]
  cases x with
  | error e => rfl
  | ok a => exact h a written

theorem Writes.delivers {session : Session Unit} {reports : List Report} {matched : Bool}
    (h : session.Writes (text reports)) (hmatched : reports.all (·.counts unknownCounts) = matched) :
    Delivers (do session; return matched) unknownCounts text (.ok reports) := by
  intro written
  rw [h.result_bind, ← hmatched]
  rfl

theorem delivers_session (settings : Settings) (found : Except ReadFault ByteArray) (format : OutputFormat)
    (command : Command) :
    (command.session settings found format).Delivers settings.unknownIsMatch (command.textOf format ·)
      (command.reports settings found) := by
  cases command with
  | containment pattern path =>
    refine delivers_bind fun p => delivers_bind fun q => ?_
    -- what is written of the only report is the text of the list of it alone
    have hwrites := writes_writeReport format (.containment (p.contains q))
    refine Writes.delivers ?_ (Bool.and_true _)
    rwa [Command.textOf, List.map_singleton, String.join_cons, String.join_nil, String.append_empty]
  | query patternsFile asWritten paths =>
    exact delivers_bind fun set => delivers_bind fun _ => (writes_writeReports format _).delivers rfl
  | normalize paths =>
    refine delivers_bind fun _ => (writes_writeReports format _).delivers ?_
    simp [Report.counts, Report.verdict?]
  | check paths =>
    refine delivers_bind fun _ => (writes_writeReports format _).delivers ?_
    simp [Report.counts, Report.verdict?]

end Session

/-! ### What the reports say -/

/-- The verdict on a path, and the patterns that contain it, are what the stored patterns say one by one. -/
structure Accurate (stored : List AnyPath) (path : AnyPath) (verdict : Verdict) (containing : List AnyPath) : Prop where
  verdict_eq : verdict = Verdict.anyOf (·.contains path) stored
  containing_perm : containing.Perm (stored.filter fun pattern => pattern.contains path = .holds)
  containing_ne_nil_iff : containing ≠ [] ↔ verdict = .holds

theorem PatternSet.accurate_ofPatterns (normalize : Bool) (patterns : List AnyPath) (path : AnyPath) :
    let set := PatternSet.ofPatterns normalize patterns
    Accurate set.toList path (set.contains path) (set.containing path) := by
  intro set
  have hset : set.Consistent := by
    rw [show set = _ from PatternFile.ofPatterns_eq_ofList patterns]
    exact consistent_ofList _
  exact ⟨contains_eq_anyOf path hset, containing_perm path hset, hset.containing_ne_nil_iff⟩

namespace Command

variable {settings : Settings} {found : Except ReadFault ByteArray} {command : Command}

/-- The texts that have to describe paths. -/
def texts : Command → List String
  | containment pattern path => [pattern, path]
  | query _ _ paths | normalize paths | check paths => paths

/-- The texts of the paths that a command is asked about. -/
def asked : Command → List String
  | containment _ path => [path]
  | query _ _ paths | normalize paths | check paths => paths

/-- Something stands in the way of a command: a text that describes no path, or that there are no patterns. -/
inductive Fails (settings : Settings) (found : Except ReadFault ByteArray) : Command → Prop
  | badPath {command : Command} {text : String} {fault : ParseError} :
      text ∈ command.texts → Path.read .any text = .error fault → Fails settings found command
  | noPatterns {patternsFile : Option String} {asWritten : Bool} {paths : List String} :
      (query patternsFile asWritten paths).source? settings = none →
        Fails settings found (query patternsFile asWritten paths)
  | load {patternsFile : Option String} {asWritten : Bool} {paths : List String} {source : Source} {e : LoadError} :
      (query patternsFile asWritten paths).source? settings = some source →
        PatternFile.load source found = .error e → Fails settings found (query patternsFile asWritten paths)

/-- The report is the one of a command on a text. -/
inductive IsReport (settings : Settings) (found : Except ReadFault ByteArray) : Command → String → Report → Prop
  | containment {patternText text : String} {pattern path : AnyPath} :
      Path.read .any patternText = .ok pattern → Path.read .any text = .ok path →
        IsReport settings found (.containment patternText text) text (.containment (pattern.contains path))
  | query {patternsFile : Option String} {asWritten : Bool} {texts : List String} {text : String} {source : Source}
      {patterns : List AnyPath} {path : AnyPath} {verdict : Verdict} {containing : List AnyPath} :
      (Command.query patternsFile asWritten texts).source? settings = some source →
        PatternFile.load source found = .ok patterns → Path.read .any text = .ok path →
        Accurate (PatternSet.ofPatterns (!asWritten && settings.normalizePatterns) patterns).toList path verdict
          containing →
        IsReport settings found (.query patternsFile asWritten texts) text (.query path verdict containing)
  | normalForm {texts : List String} {text : String} {path : AnyPath} :
      Path.read .any text = .ok path →
        IsReport settings found (.normalize texts) text (.normalForm path.normalForm)
  | kinds {texts : List String} {text : String} {path : AnyPath} :
      Path.read .any text = .ok path → IsReport settings found (.check texts) text (.kinds path)

/-! ### Reports that are found out -/

theorem readPath_eq_ok_iff {text : String} {path : AnyPath} :
    readPath text = .ok path ↔ Path.read .any text = .ok path :=
  mapError_eq_ok_iff

theorem readPaths_eq_ok_iff {texts : List String} {paths : List AnyPath} :
    readPaths texts = .ok paths ↔ List.Forall₂ (fun text path => Path.read .any text = .ok path) texts paths := by
  unfold readPaths
  simp only [mapM_eq_ok_iff, readPath_eq_ok_iff]

theorem patterns_eq_ok_iff {source? : Option Source} {normalize : Bool} {set : PatternSet AnyPath} :
    patterns source? found normalize = .ok set ↔
      ∃ source, source? = some source ∧
        ∃ stored, PatternFile.load source found = .ok stored ∧ PatternSet.ofPatterns normalize stored = set := by
  unfold patterns
  cases source? with
  | none => simp
  | some source =>
    simp only [Option.some.injEq, exists_eq_left']
    constructor
    · intro h
      obtain ⟨stored, hstored, h⟩ := bind_eq_ok_iff.1 h
      exact ⟨stored, mapError_eq_ok_iff.1 hstored, Except.ok.inj h⟩
    · rintro ⟨stored, hstored, rfl⟩
      exact bind_eq_ok_iff.2 ⟨stored, mapError_eq_ok_iff.2 hstored, rfl⟩

/-- The reports of a command on a list of paths are those on its texts, one by one. -/
theorem forall₂_isReport_map {texts : List String} {paths : List AnyPath} {report : AnyPath → Report}
    (hpaths : readPaths texts = .ok paths)
    (h : ∀ text path, Path.read .any text = .ok path → command.IsReport settings found text (report path)) :
    List.Forall₂ (command.IsReport settings found) texts (paths.map report) :=
  List.forall₂_map_right_iff.2 ((readPaths_eq_ok_iff.1 hpaths).imp h)

theorem forall₂_isReport_of_reports {reports : List Report} (h : command.reports settings found = .ok reports) :
    List.Forall₂ (command.IsReport settings found) command.asked reports := by
  cases command with
  | containment pattern path =>
    obtain ⟨p, hp, h⟩ := bind_eq_ok_iff.1 h
    obtain ⟨q, hq, h⟩ := bind_eq_ok_iff.1 h
    cases h
    exact .cons (.containment (readPath_eq_ok_iff.1 hp) (readPath_eq_ok_iff.1 hq)) .nil
  | query patternsFile asWritten texts =>
    obtain ⟨set, hset, h⟩ := bind_eq_ok_iff.1 h
    obtain ⟨paths, hpaths, h⟩ := bind_eq_ok_iff.1 h
    cases h
    obtain ⟨source, hsource, stored, hload, rfl⟩ := patterns_eq_ok_iff.1 hset
    exact forall₂_isReport_map hpaths fun text path htext =>
      .query hsource hload htext (PatternSet.accurate_ofPatterns ..)
  | normalize texts =>
    obtain ⟨paths, hpaths, h⟩ := bind_eq_ok_iff.1 h
    cases h
    exact forall₂_isReport_map hpaths fun text path htext => .normalForm htext
  | check texts =>
    obtain ⟨paths, hpaths, h⟩ := bind_eq_ok_iff.1 h
    cases h
    exact forall₂_isReport_map hpaths fun text path htext => .kinds htext

/-- What a command writes tells of its reports. -/
theorem isOutput_textOf {reports : List Report} (format : OutputFormat)
    (h : List.Forall₂ (command.IsReport settings found) command.asked reports) :
    Report.IsOutput format reports (command.textOf format reports) := by
  cases command with
  | containment patternText text =>
    obtain ⟨report, _, hreport, hnil, rfl⟩ := List.forall₂_cons_left_iff.1 h
    cases hnil
    cases hreport with
    | containment _ _ =>
      rw [textOf, List.map_singleton, String.join_cons, String.join_nil, String.append_empty]
      exact Report.isOutput_textIn format _
  | query | normalize | check =>
    refine Report.isOutput_textOfList format ?_
    rintro report hreport verdict rfl
    obtain ⟨text, -, his⟩ := exists_mem_of_forall₂_right h hreport
    cases his

/-! ### Commands that fail -/

theorem fails_of_readPath {text : String} {e : CommandError} (h : readPath text = .error e)
    (htext : text ∈ command.texts) : command.Fails settings found := by
  obtain ⟨fault, hfault, -⟩ := mapError_eq_error_iff.1 h
  exact .badPath htext hfault

/-- Where reports only need the paths, they are missing because of one of the texts. -/
theorem fails_of_readPaths {texts : List String} {f : List AnyPath → List Report} {e : CommandError}
    (h : (do return f (← readPaths texts)) = .error e) (htexts : ∀ text ∈ texts, text ∈ command.texts) :
    command.Fails settings found := by
  rcases bind_eq_error_iff.1 h with h | ⟨paths, -, h⟩
  · obtain ⟨before, text, after, rfl, -, htext⟩ := mapM_eq_error_iff.1 h
    exact fails_of_readPath htext (htexts text (List.mem_append_right _ (List.mem_cons_self ..)))
  · cases h

theorem fails_of_patterns {patternsFile : Option String} {asWritten normalize : Bool} {paths : List String}
    {e : CommandError}
    (h : patterns ((query patternsFile asWritten paths).source? settings) found normalize = .error e) :
    (query patternsFile asWritten paths).Fails settings found := by
  cases hsource : (query patternsFile asWritten paths).source? settings with
  | none => exact .noPatterns hsource
  | some source =>
    rw [hsource] at h
    rcases bind_eq_error_iff.1 h with hload | ⟨stored, -, h⟩
    · obtain ⟨e', hload, -⟩ := mapError_eq_error_iff.1 hload
      exact .load hsource hload
    · cases h

theorem fails_of_reports {e : CommandError} (h : command.reports settings found = .error e) :
    command.Fails settings found := by
  cases command with
  | containment pattern path =>
    rcases bind_eq_error_iff.1 h with hp | ⟨p, -, h⟩
    · exact fails_of_readPath hp (List.mem_cons_self ..)
    · rcases bind_eq_error_iff.1 h with hq | ⟨q, -, h⟩
      · exact fails_of_readPath hq (List.mem_cons_of_mem _ (List.mem_cons_self ..))
      · cases h
  | query patternsFile asWritten texts =>
    rcases bind_eq_error_iff.1 h with hset | ⟨set, -, h⟩
    · exact fails_of_patterns hset
    · exact fails_of_readPaths h fun _ htext => htext
  | normalize texts | check texts => exact fails_of_readPaths h fun _ htext => htext

theorem IsReport.exists_path {text : String} {report : Report} (h : command.IsReport settings found text report) :
    ∃ path, Path.read .any text = .ok path := by
  cases h with
  | containment _ hread | query _ _ hread _ | normalForm hread | kinds hread => exact ⟨_, hread⟩

theorem exists_path_of_reports {reports : List Report} (h : command.reports settings found = .ok reports)
    {text : String} (htext : text ∈ command.texts) : ∃ path, Path.read .any text = .ok path := by
  have hreports := forall₂_isReport_of_reports h
  cases command with
  | containment pattern path =>
    obtain ⟨report, -, hreport⟩ := exists_mem_of_forall₂_left hreports (List.mem_singleton_self path)
    rcases List.mem_pair.1 htext with rfl | rfl
    · cases hreport with
      | containment hpattern _ => exact ⟨_, hpattern⟩
    · exact hreport.exists_path
  | query | normalize | check =>
    obtain ⟨report, -, hreport⟩ := exists_mem_of_forall₂_left hreports htext
    exact hreport.exists_path

theorem not_fails_of_reports {reports : List Report} (h : command.reports settings found = .ok reports) :
    ¬command.Fails settings found := by
  intro hfails
  cases hfails with
  | badPath htext hfault =>
    obtain ⟨path, hpath⟩ := exists_path_of_reports h htext
    rw [hfault] at hpath
    cases hpath
  | noPatterns hnone =>
    obtain ⟨set, hset, -⟩ := bind_eq_ok_iff.1 h
    obtain ⟨source, hsource, -⟩ := patterns_eq_ok_iff.1 hset
    rw [hnone] at hsource
    cases hsource
  | load hsource hload =>
    obtain ⟨set, hset, -⟩ := bind_eq_ok_iff.1 h
    obtain ⟨source, hsource', stored, hload', -⟩ := patterns_eq_ok_iff.1 hset
    obtain rfl : _ = source := Option.some.inj (hsource.symm.trans hsource')
    rw [hload] at hload'
    cases hload'

end Command

/-! ### Outcomes -/

theorem Report.all_counts_iff {reports : List Report} {unknownCounts : Bool} :
    reports.all (·.counts unknownCounts) = true ↔ ∀ report ∈ reports, ∀ verdict, report.HasVerdict verdict →
      verdict = .holds ∨ verdict = .unknown ∧ unknownCounts = true := by
  have hcounts : ∀ report : Report, report.counts unknownCounts = true ↔
      ∀ verdict, report.HasVerdict verdict → verdict = .holds ∨ verdict = .unknown ∧ unknownCounts = true := by
    intro report
    simp only [← verdict?_eq_some_iff, counts]
    cases report.verdict? with
    | none => simp
    | some verdict => cases verdict <;> simp [Verdict.counts]
  rw [List.all_eq_true]
  exact forall₂_congr fun report _ => hcounts report

theorem Invocation.outcome_eq (settings : Settings) (found : Except ReadFault ByteArray) (invocation : Invocation) :
    invocation.outcome settings found =
      match invocation.command.reports settings found with
      | .error e => .ofError e ""
      | .ok reports =>
        { status := if reports.all (·.counts settings.unknownIsMatch) then 0 else 1
          output := invocation.command.textOf (invocation.outputFormat settings) reports
          error := none } := by
  unfold outcome Outcome.ofSession
  rw [Session.delivers_session]
  cases invocation.command.reports settings found with
  | error e => rfl
  | ok reports => simp only [String.empty_append]

/-- A command fails, with the status `2`, exactly when there are no patterns for it or a text describes no path, and
then it writes nothing. Otherwise there is a report on every path, in the order in which they were given, and that of a
query lists the stored patterns that contain the path; the output tells of these reports one after the other. The status
is `0` if every verdict is that the path is contained, or unknown where this counts as a match, and `1` if not. -/
theorem Request.outcome_run (settings : Settings) (found : Except ReadFault ByteArray) (invocation : Invocation) :
    let command := invocation.command
    let outcome := (Request.run invocation).outcome settings found
    (outcome.status = 2 ↔ command.Fails settings found) ∧
    (outcome.status = 2 → outcome.output = "") ∧
    (outcome.status ≠ 2 → ∃ reports : List Report,
      List.Forall₂ (command.IsReport settings found) command.asked reports ∧
      Report.IsOutput (invocation.outputFormat settings) reports outcome.output ∧
      (outcome.status = 0 ∨ outcome.status = 1) ∧
      (outcome.status = 0 ↔ ∀ report ∈ reports, ∀ verdict, report.HasVerdict verdict →
        verdict = .holds ∨ verdict = .unknown ∧ settings.unknownIsMatch = true) ∧
      ∀ texts, command = .normalize texts ∨ command = .check texts → outcome.status = 0) := by
  intro command outcome
  have houtcome : outcome = _ := invocation.outcome_eq settings found
  cases hreports : command.reports settings found with
  | error e =>
    rw [hreports] at houtcome
    rw [houtcome]
    exact ⟨iff_of_true rfl (Command.fails_of_reports hreports), fun _ => rfl, fun h => absurd rfl h⟩
  | ok reports =>
    rw [hreports] at houtcome
    have hforall := Command.forall₂_isReport_of_reports hreports
    have hstatus : outcome.status = 0 ∨ outcome.status = 1 := by
      rw [houtcome]
      exact ite_eq_or_eq ..
    have hzero : outcome.status = 0 ↔ ∀ report ∈ reports, ∀ verdict, report.HasVerdict verdict →
        verdict = .holds ∨ verdict = .unknown ∧ settings.unknownIsMatch = true := by
      rw [houtcome, ← Report.all_counts_iff]
      simp only [ite_eq_left_iff, Nat.one_ne_zero, imp_false, not_not]
    have hne : outcome.status ≠ 2 := by omega
    refine ⟨iff_of_false hne (Command.not_fails_of_reports hreports), fun h => absurd h hne, fun _ => ?_⟩
    have hwritten : Report.IsOutput (invocation.outputFormat settings) reports outcome.output := by
      rw [houtcome]
      exact Command.isOutput_textOf _ hforall
    refine ⟨reports, hforall, hwritten, hstatus, hzero, fun texts htexts => ?_⟩
    -- the reports of these commands have no verdict
    refine hzero.2 fun report hreport verdict hverdict => ?_
    obtain ⟨text, -, his⟩ := exists_mem_of_forall₂_right hforall hreport
    rcases htexts with h | h <;> rw [h] at his <;> cases his <;> cases hverdict

/-- Of the patterns `$.a.*` and `$.a[(@.length-1)]` from the standard input the first one contains `$.a.b`, and it is
unknown whether the second one contains `$.a[0]`: the status is `0` where this counts as a match, after two reports, in
both formats, and `1` where it does not. That `$.b[` is no path leaves nothing written of the normal form of `$.a`. -/
theorem Request.outcome_run_of_unknown :
    let found : Except ReadFault ByteArray := .ok "$.a.*\n$.a[(@.length-1)]".toUTF8
    let settings : Settings := { unknownIsMatch := true }
    let query (format : Option OutputFormat) : Invocation :=
      { format, command := .query (some "-") false ["$.a.b", "$.a[0]"] }
    let normalize : Invocation := { format := some .json, command := .normalize ["$.a", "$.b["] }
    Request.ofArguments ["query", "-p", "-", "$.a.b", "$.a[0]"] = .run (query none) ∧
    ((Request.run (query none)).outcome settings found).status = 0 ∧
    ((Request.run (query none)).outcome {} found).status = 1 ∧
    (∃ reports : List Report, reports.length = 2 ∧
      (∀ report ∈ reports, ∀ verdict, report.HasVerdict verdict → verdict ≠ .fails) ∧
      Report.IsOutput .text reports "$.a.b\ttrue\n  $.a.*\n$.a[0]\tunknown\n") ∧
    ((Request.run (query none)).outcome settings found).output = "$.a.b\ttrue\n  $.a.*\n$.a[0]\tunknown\n" ∧
    ((Request.run (query (some .json))).outcome settings found).output =
      "[\n  \x7b\n    \"path\": \"$.a.b\",\n    \"result\": \"true\",\n    \"matched\": [\n      \"$.a.*\"\n    ]" ++
        "\n  \x7d,\n  \x7b\n    \"path\": \"$.a[0]\",\n    \"result\": \"unknown\",\n    \"matched\": []\n  \x7d\n]\n" ∧
    normalize.command.Fails settings found ∧ ((Request.run normalize).outcome settings found).output = "" := by
  intro found settings query normalize
  have hquery : ((Request.run (query none)).outcome settings found).status = 0 := by decide +kernel
  have htext : ((Request.run (query none)).outcome settings found).output =
      "$.a.b\ttrue\n  $.a.*\n$.a[0]\tunknown\n" := by decide +kernel
  have hnormalize : ((Request.run normalize).outcome settings found).status = 2 := by decide +kernel
  obtain ⟨-, -, hanswered⟩ := outcome_run settings found (query none)
  obtain ⟨hfails, hsilent, -⟩ := outcome_run settings found normalize
  obtain ⟨reports, hreports, houtput, -, hmatch, -⟩ := hanswered (by omega)
  rw [show (query none).outputFormat settings = .text by decide +kernel, htext] at houtput
  refine ⟨by decide +kernel, hquery, by decide +kernel, ⟨reports, hreports.length_eq.symm, ?_, houtput⟩, htext,
    by decide +kernel, hfails.1 hnormalize, hsilent hnormalize⟩
  rintro report hreport verdict hverdict rfl
  rcases hmatch.1 hquery report hreport _ hverdict with h | ⟨h, -⟩ <;> cases h

end PathContainment
