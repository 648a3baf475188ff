import PathContainment.CommandLine.Outcome

/-!
# Steps of a session

A session is followed step by step. A step that may fail writes nothing, and if it fails the session ends with what
has been written before. A step that writes does not fail, and adds a known text to what has been written
(`Session.Writes`).
-/

namespace PathContainment

namespace Session

variable {α β : Type} {written : String}

theorem result_bind {x : Session α} {f : α → Session β} :
    (x >>= f).result written =
      match x.result written with
      | (.ok a, written') => (f a).result written'
      | (.error e, written') => (.error e, written') := by
  simp only [result, ExceptT.run_bind, StateT.run_bind, Id.run_bind]
  rcases Id.run (StateT.run (ExceptT.run x) written) with ⟨_ | _, _⟩ <;> rfl

theorem result_liftM_bind {y : Except CommandError α} {f : α → Session β} :
    (liftM y >>= f : Session β).result written =
      match y with
      | .ok a => (f a).result written
      | .error e => (.error e, written) := by
  cases y <;> rfl

/-! ### Writing -/

/-- The session succeeds, and adds the text to whatever has been written. -/
def Writes (session : Session Unit) (text : String) : Prop :=
  ∀ written, session.result written = (.ok (), written ++ text)

theorem Writes.result_bind {session : Session Unit} {f : Unit → Session β} {text : String}
    (h : Writes session text) : (session >>= f).result written = (f ()).result (written ++ text) := by
  rw [Session.result_bind, h]

theorem writes_writeLine (line : String) : Writes (writeLine line) (line ++ "\n") := by
  intro written
  rw [← String.append_assoc]
  rfl

/-- What the steps of a loop write stands one after the other. -/
theorem writes_forM {step : α → Session Unit} {text : α → String} (h : ∀ a, Writes (step a) (text a)) (l : List α) :
    Writes (l.forM step) (String.join (l.map text)) := by
  induction l with
  | nil =>
    intro written
    rw [List.map_nil, String.join_nil, String.append_empty]
    rfl
  | cons a l ih =>
    intro written
    -- the rest of the loop goes on after what its first step has written
    have hstep : (List.forM (a :: l) step).result written = (l.forM step).result (written ++ text a) :=
      (h a).result_bind
    rw [hstep, ih, List.map_cons, String.join_cons, String.append_assoc]

end Session

/-! ### Reports -/

namespace Report

/-- The lines of a report, each with a line break at its end. -/
def text (report : Report) : String := String.join (report.lines.map (· ++ "\n"))

/-- What is written of a report that stands alone. -/
def textIn (format : OutputFormat) (report : Report) : String :=
  match format with
  | .text => report.text
  | .json => report.toJson.pretty ++ "\n"

/-- What is written of a list of reports: the text of each, or one JSON value. -/
def textOfList (format : OutputFormat) (reports : List Report) : String :=
  match format with
  | .text => String.join (reports.map text)
  | .json => (Json.array (reports.map toJson)).pretty ++ "\n"

end Report

namespace Session

theorem writes_writeLines (report : Report) : Writes (writeLines report) report.text :=
  writes_forM writes_writeLine report.lines

theorem writes_writeReport (format : OutputFormat) (report : Report) :
    Writes (writeReport format report) (report.textIn format) := by
  cases format with
  | text => exact writes_writeLines report
  | json => exact writes_writeLine _

theorem writes_writeReports (format : OutputFormat) (reports : List Report) :
    Writes (writeReports format reports) (Report.textOfList format reports) := by
  cases format with
  | text => exact writes_forM writes_writeLines reports
  | json => exact writes_writeLine _

end Session

end PathContainment
