import Parlance.Command

/-!
Contract: what commands write.

Everything a command writes goes behind what is there already, and reading a source text writes to
the errors alone. Owns: what each of these steps adds to the streams. Does not own: the commands.
-/

namespace Parlance.Command

namespace Console

def addErrors (console : Console) (text : String) : Console :=
  { console with errors := console.errors ++ text }

variable (style : Style) (console : Console)

@[simp] theorem addErrors_output (text : String) :
    (console.addErrors text).output = console.output := rfl

@[simp] theorem addErrors_errors (text : String) :
    (console.addErrors text).errors = console.errors ++ text := rfl

@[simp] theorem addErrors_files (text : String) :
    (console.addErrors text).files = console.files := rfl

theorem addErrors_empty : console.addErrors "" = console := by
  simp [addErrors]

theorem addErrors_addErrors (first second : String) :
    (console.addErrors first).addErrors second = console.addErrors (first ++ second) := by
  simp [addErrors, String.append_assoc]

def logged (line : String) : String :=
  if style.verbose then line ++ "\n" else ""

theorem log_eq (line : String) :
    console.log style line = console.addErrors (logged style line) := by
  unfold log logged
  split
  · rw [addErrors, String.append_assoc]
  · rw [addErrors_empty]

theorem logged_of_quiet {style : Style} (quiet : style.verbose = false) (line : String) :
    logged style line = "" := by
  simp [logged, quiet]

/-- A failure against the source it is in, as it is shown. -/
def reported (name source : String) (failure : Failure) : String :=
  shown style ((Diagnostic.ofFailure name failure).render .terminal
    ((Sources.empty.add name source).line? name failure.span.startLine))

theorem report_eq (name source : String) (failure : Failure) :
    console.report style name source failure =
      console.addErrors (reported style name source failure) := by
  have seen : (Sources.empty.add name source).get? name = some (Text.lines source.toList) :=
    List.lookup_cons_self
  have isFile : (Diagnostic.ofFailure name failure).location.file = name := rfl
  simp only [report, Sources.render, Sources.visit, isFile, seen]
  rfl

end Console

open Console

def replyRecord (style : Style) (name : String) : Reply → String
  | .program program =>
    logged style
      s!"concorde.parser: parsed {program.body.length} top-level statements from {name}"
  | .failure failure => logged style (failureRecord name failure)
  | .unusable => ""

def readingRecord (machine : Machine) (style : Style) (settings : Settings)
    (name source : String) : String :=
  logged style s!"concorde.frontend: parsing {name} ({source.length} chars)" ++
    replyRecord style name (reply machine settings source)

theorem parseUnit_eq (machine : Machine) (style : Style) (settings : Settings)
    (name source : String) (console : Console) :
    parseUnit machine style settings name source console =
      (reply machine settings source,
        console.addErrors (readingRecord machine style settings name source)) := by
  have recorded : ∀ (found : Reply) (console : Console),
      recordReply style name found console = console.addErrors (replyRecord style name found) := by
    intro found console
    cases found with
    | program | failure => exact log_eq _ _ _
    | unusable => exact (addErrors_empty console).symm
  rw [parseUnit, recorded, log_eq, addErrors_addErrors]
  rfl

/-- Without a record nothing is written about the reading of a text. -/
theorem readingRecord_of_quiet {style : Style} (quiet : style.verbose = false)
    (machine : Machine) (settings : Settings) (name source : String) :
    readingRecord machine style settings name source = "" := by
  unfold readingRecord replyRecord
  cases reply machine settings source <;> simp [logged_of_quiet quiet]

end Parlance.Command
