import Parlance.Proofs.Command.Streams
import Parlance.Proofs.Grammar.Limits
import Parlance.Proofs.Settings.Governing
import Parlance.Session

/-!
Contract: by which settings a file is judged.

A check of a folder reads every file below it under the limit that holds for the folder. A check of
the file alone, and an editor that opens it, read it under the limit that holds for the file. Owns:
what a check reports, and the theorem that says when the two ways to a file lead to the same
judgement of it. Does not own: the limits themselves and the reading of texts.
-/

namespace Parlance

/-- The limit that the settings which govern a place give. -/
def Settings.Bounds (machine : Machine) (files : Files) (place : Path) (limit : Limit) : Prop :=
  ∃ settings, governing files place = .ok settings ∧ settings.nesting machine = .ok limit

namespace Command

open Console

/-! ## What a check reports -/

/-- The texts that are no programs under a limit, under their names and with their failures. -/
def failing (limit : Limit) (texts : Batch) : List (String × String × Failure) :=
  texts.filterMap fun row =>
    (Program.failure? (Program.ofText limit row.2)).map fun failure => (row.1, row.2, failure)

def showing (style : Style) (row : String × String × Failure) : String :=
  reported style row.1 row.2.1 row.2.2

/-- What a check of so many files leaves behind when it has found failures. -/
structure Reports (style : Style) (console : Console) (count : Nat)
    (failed : List (String × String × Failure)) (outcome : Outcome) : Prop where
  completes : outcome.crash = none
  exitCode : outcome.exitCode = if failed.isEmpty then 0 else 1
  untouched : outcome.console.files = console.files
  output : outcome.console.output = console.output ++
    if failed.isEmpty then shown style s!"checked {count} file(s): no errors" else ""
  /-- The failures are shown in their order, behind the record if one is kept. -/
  errors : ∃ record, (style.verbose = false → record = "") ∧
    outcome.console.errors = console.errors ++ record ++ String.join (failed.map (showing style)) ++
      if failed.isEmpty then ""
      else shown style s!"{failed.length} of {count} file(s) failed to parse"

section Checking

variable {machine : Machine} {style : Style} {settings : Settings} {limit : Limit}
  {console : Console}

theorem mem_failing {texts : Batch} {name source : String} {failure : Failure} :
    (name, source, failure) ∈ failing limit texts ↔
      (name, source) ∈ texts ∧ Program.failure? (Program.ofText limit source) = some failure := by
  simp only [failing, List.mem_filterMap, Option.map_eq_some_iff, Prod.mk.injEq]
  constructor
  · rintro ⟨row, member, cause, fails, rfl, rfl, rfl⟩
    exact ⟨member, fails⟩
  · rintro ⟨member, fails⟩
    exact ⟨(name, source), member, failure, fails, rfl, rfl, rfl⟩

theorem failing_singleton {name source : String} :
    failing limit [(name, source)] = (Program.failure? (Program.ofText limit source)).toList.map
      fun failure => (name, source, failure) := by
  cases fails : Program.failure? (Program.ofText limit source) with
  | none => exact List.filterMap_cons_none (by simp [fails])
  | some failure => exact List.filterMap_cons_some (by simp [fails])

/-- Under a limit every text is read, and those that are no programs are found. -/
theorem checkTexts_eq (bounded : settings.nesting machine = .ok limit) (texts : Batch)
    (console : Console) :
    ∃ record, (style.verbose = false → record = "") ∧
      checkTexts machine style settings texts console =
        (⟨failing limit texts, false⟩, console.addErrors record) := by
  induction texts generalizing console with
  | nil => exact ⟨"", fun _ => rfl, by rw [addErrors_empty]; rfl⟩
  | cons row rest ih =>
    have silent := fun quiet : style.verbose = false =>
      readingRecord_of_quiet quiet machine settings row.1 row.2
    rw [checkTexts, parseUnit_eq]
    cases outcome : Program.ofText limit row.2 with
    | ok program =>
      have replied : reply machine settings row.2 = .program program := by
        simp only [reply, bounded, outcome]
      have passed : failing limit (row :: rest) = failing limit rest :=
        List.filterMap_cons_none (by simp [outcome, Program.failure?])
      obtain ⟨record, quietly, course⟩ :=
        ih (console.addErrors (readingRecord machine style settings row.1 row.2))
      rw [addErrors_addErrors] at course
      refine ⟨readingRecord machine style settings row.1 row.2 ++ record, fun quiet => ?_, ?_⟩
      · rw [silent quiet, quietly quiet, String.append_empty]
      · simp only [replied, course, passed]
    | error failure =>
      have replied : reply machine settings row.2 = .failure failure := by
        simp only [reply, bounded, outcome]
      have found : failing limit (row :: rest) =
          (row.1, row.2, failure) :: failing limit rest :=
        List.filterMap_cons_some (by simp [outcome, Program.failure?])
      simp only [replied, log_eq, addErrors_addErrors]
      generalize
        s!"concorde.frontend: {row.1} failed with {failure.fault.stage.describe} error" = line
      obtain ⟨record, quietly, course⟩ := ih
        (console.addErrors (readingRecord machine style settings row.1 row.2 ++ logged style line))
      rw [addErrors_addErrors] at course
      refine ⟨readingRecord machine style settings row.1 row.2 ++ logged style line ++ record,
        fun quiet => ?_, ?_⟩
      · rw [silent quiet, quietly quiet, logged_of_quiet quiet, String.append_empty,
          String.append_empty]
      · simp only [course, found]

theorem checkTexts_unusable {fault : Incomparable}
    (unbounded : settings.nesting machine = .error fault) {texts : Batch} (filled : texts ≠ [])
    (console : Console) :
    (checkTexts machine style settings texts console).1.unusable = true := by
  cases texts with
  | nil => contradiction
  | cons row rest =>
    have replied : reply machine settings row.2 = .unusable := by simp only [reply, unbounded]
    rw [checkTexts, parseUnit_eq, replied]

theorem foldl_report (failed : List (String × String × Failure)) (console : Console) :
    failed.foldl (fun console row => console.report style row.1 row.2.1 row.2.2) console =
      console.addErrors (String.join (failed.map (showing style))) := by
  induction failed generalizing console with
  | nil => exact (addErrors_empty console).symm
  | cons row rest ih =>
    rw [List.foldl_cons, ih, report_eq, addErrors_addErrors]
    simp [showing]

theorem concludeCheck_reports (count : Nat) (failed : List (String × String × Failure))
    {record : String} (quietly : style.verbose = false → record = "") :
    Reports style console count failed
      (concludeCheck style count failed (console.addErrors record)) := by
  cases failed with
  | nil => exact ⟨rfl, rfl, rfl, rfl, record, quietly, by simp [concludeCheck, exit, say]⟩
  | cons first rest =>
    have concluded : concludeCheck style count (first :: rest) (console.addErrors record) =
        (((console.addErrors record).addErrors
          (String.join ((first :: rest).map (showing style)))).warn style
            s!"{(first :: rest).length} of {count} file(s) failed to parse").exit 1 := by
      rw [← foldl_report]
      rfl
    rw [concluded]
    exact {
      completes := rfl
      exitCode := rfl
      untouched := rfl
      output := (String.append_empty).symm
      errors := ⟨record, quietly, rfl⟩ }

/-- Texts are read under the names of their files, in the order of the files. -/
theorem map_readUnits {files : Files} {units : List SourceUnit} {texts : Batch}
    (read : readUnits files units = .ok texts) :
    units.map (fun unit => (unit.read files).map fun text => (unit.name, text)) =
      texts.map Except.ok := by
  induction units generalizing texts with
  | nil =>
    obtain rfl := Except.ok.inj read
    rfl
  | cons first rest ih =>
    unfold readUnits at read
    cases isText : first.read files with
    | error obstacle => simp [isText] at read
    | ok text =>
      cases others : readUnits files rest with
      | error obstacle => simp [isText, others] at read
      | ok following =>
        simp only [isText, others, Except.ok.injEq] at read
        rw [← read, List.map_cons, List.map_cons, ih others, isText]
        rfl

theorem mem_of_readUnits {files : Files} {units : List SourceUnit} {texts : Batch}
    {unit : SourceUnit} {source : String} (read : readUnits files units = .ok texts)
    (member : unit ∈ units) (isText : files.readUnified unit.path = .ok source) :
    (unit.name, source) ∈ texts := by
  have listed : (unit.read files).map (fun text => (unit.name, text)) ∈ texts.map Except.ok :=
    map_readUnits read ▸ List.mem_map_of_mem member
  obtain ⟨row, inTexts, isRow⟩ := List.mem_map.mp listed
  unfold SourceUnit.read at isRow
  split at isRow
  · cases isRow
  · rw [isText] at isRow
    have same : row = (unit.name, source) := Except.ok.inj isRow
    rwa [← same]

theorem eq_of_readUnits {files : Files} {texts : Batch} {unit : SourceUnit} {source : String}
    (read : readUnits files [unit] = .ok texts) (isText : files.readUnified unit.path = .ok source) :
    texts = [(unit.name, source)] := by
  have member := mem_of_readUnits read List.mem_cons_self isText
  have size : 1 = texts.length := by simpa using congrArg List.length (map_readUnits read)
  obtain ⟨row, rfl⟩ := List.length_eq_one_iff.mp size.symm
  rw [List.mem_singleton.mp member]

theorem checkUnits_reports {workers : Option Int} {target : String} {units : List SourceUnit}
    (filled : units ≠ [])
    (completes : (checkUnits machine style settings workers target units console).crash = none) :
    ∃ limit texts, settings.nesting machine = .ok limit ∧ readUnits console.files units = .ok texts ∧
      Reports style console units.length (failing limit texts)
        (checkUnits machine style settings workers target units console) := by
  unfold checkUnits at completes ⊢
  cases read : readUnits console.files units with
  | error obstacle => simp [read, abort] at completes
  | ok texts =>
    have someText : texts ≠ [] := by
      intro empty
      have matched := map_readUnits read
      simp [empty, filled] at matched
    simp only [read] at completes ⊢
    by_cases admitted : Batch.admits workers = true
    · rw [if_pos admitted] at completes ⊢
      cases bound : settings.nesting machine with
      | error fault =>
        simp [checkTexts_unusable bound someText, abort] at completes
      | ok limit =>
        refine ⟨limit, texts, rfl, rfl, ?_⟩
        rw [log_eq]
        obtain ⟨record, quietly, course⟩ := checkTexts_eq bound texts (console.addErrors
          (logged style s!"concorde.cli: checking {units.length} file(s) under {target}"))
        rw [course]
        simp only [Bool.false_eq_true, ↓reduceIte, log_eq, addErrors_addErrors]
        apply concludeCheck_reports
        intro quiet
        simp [logged_of_quiet quiet, quietly quiet]
    · simp [admitted, abort] at completes

theorem run_check_reports {home place : Path} {input path : String} {workers : Option Int}
    {outcome : Outcome} (reaches : console.files.reach home path = .ok place)
    (filled : ∀ units, unitsAt console.files place path = .ok units → units ≠ [])
    (runs : run machine style home input console (.check path workers) = some outcome)
    (completes : outcome.crash = none) :
    ∃ limit units texts, Settings.Bounds machine console.files place limit ∧
      unitsAt console.files place path = .ok units ∧ readUnits console.files units = .ok texts ∧
      Reports style console units.length (failing limit texts) outcome := by
  unfold run onPath at runs
  by_cases nameable : Path.isNameable path = true
  · simp only [nameable, ↓reduceIte, reaches, Option.ite_none_left_eq_some,
      Option.some.injEq] at runs
    obtain ⟨-, rfl⟩ := runs
    unfold checkPath at completes ⊢
    cases governs : Settings.governing console.files place with
    | error fault => simp [governs, abort] at completes
    | ok settings =>
      cases found : unitsAt console.files place path with
      | error obstacle => simp [governs, found, abort] at completes
      | ok units =>
        have someUnit := filled units found
        cases units with
        | nil => contradiction
        | cons first rest =>
          simp only [governs, found] at completes ⊢
          obtain ⟨limit, texts, bound, read, reports⟩ :=
            checkUnits_reports someUnit completes
          exact ⟨limit, first :: rest, texts, ⟨settings, governs, bound⟩, rfl, read, reports⟩
  · simp only [nameable, Bool.false_eq_true, ↓reduceIte, Option.some.injEq] at runs
    simp [← runs, abort] at completes

end Checking

/-! ## Ways to a file -/

/-- A source file below a folder and the ways to it: a written path to the folder, one to the file
itself, and the address of the file. -/
structure Reached (files : Files) (home : Path) (place : Path) (rest : Path) (wide : String)
    (narrow : String) (uri : String) : Prop where
  isFolder : files.get? place = some .folder
  isSource : ∃ name, rest.getLast? = some name ∧ sourceEnding.toList <:+ name.toList
  toFolder : files.reach home wide = .ok place
  toFile : files.reach home narrow = .ok (place ++ rest)
  address : ∃ written, Session.Uri.target uri = .file written ∧
    Settings.locate home written = .ok (place ++ rest)

section Ways

variable {machine : Machine} {files : Files} {home place rest : Path}
variable {wide narrow uri source : String}
  {limit : Limit}

theorem Reached.mem_unitsAt (reached : Reached files home place rest wide narrow uri)
    (isText : files.readUnified (place ++ rest) = .ok source) {units : List SourceUnit}
    (found : unitsAt files place wide = .ok units) :
    ⟨place ++ rest, Path.join (Path.tidy wide) rest⟩ ∈ units := by
  obtain ⟨text, writable, stands, -⟩ := Files.exists_of_readUnified isText
  obtain ⟨name, isLast, ends⟩ := reached.isSource
  have isFolder : files.isFolder place = true := by simp [Files.isFolder, reached.isFolder]
  unfold unitsAt at found
  rw [if_pos isFolder] at found
  split at found
  · simp at found
  · obtain rfl := Except.ok.inj found
    exact List.mem_map.mpr ⟨rest, files.mem_withEnding stands isLast ends, rfl⟩

theorem unitsAt_of_file (isText : files.readUnified place = .ok source) (path : String) :
    unitsAt files place path = .ok [⟨place, Path.tidy path⟩] := by
  obtain ⟨text, writable, stands, -⟩ := Files.exists_of_readUnified isText
  simp [unitsAt, Files.isFolder, stands]

/-- An editor that opens a file is told its failure under the limit that holds for the file. -/
theorem Reached.published (reached : Reached files home place rest wide narrow uri)
    (bounds : Settings.Bounds machine files (place ++ rest) limit) (session : Session)
    (source : String) :
    (session.handle machine files home (.openDocument uri source)).1 =
      .ok (.published uri
        ((Program.failure? (Program.ofText limit source)).toList.map .ofFailure)) := by
  obtain ⟨settings, governs, bound⟩ := bounds
  obtain ⟨written, names, leads⟩ := reached.address
  have located : Session.settingsAt files home written = .ok settings := by
    rw [Session.settingsAt, leads]
    exact governs
  have found : Session.settingsFor files home uri = .ok settings := by
    simp only [Session.settingsFor, names, located]
  simp only [Session.handle, Session.openDocument, Session.update, found, Session.publish]
  unfold Session.Document.analyse
  cases outcome : Program.ofText limit source with
  | error failure | ok program =>
    simp [bound, outcome, Session.Document.notices, Program.failure?]

/-- Two limits judge a text alike, unless it runs out of levels under one of them. -/
theorem exists_tooDeep {outer inner : Limit}
    (differ : Program.failure? (Program.ofText outer source) ≠
      Program.failure? (Program.ofText inner source)) :
    ∃ failure, (Program.failure? (Program.ofText outer source) = some failure ∨
        Program.failure? (Program.ofText inner source) = some failure) ∧
      failure.fault.code = "E202" := by
  rcases Nat.le_total outer.depth inner.depth with bound | bound
  · rcases Program.ofText_agrees source bound with same | ⟨early, fails, isDeep, -⟩
    · exact absurd (congrArg Program.failure? same) differ
    · exact ⟨early, .inl (congrArg Program.failure? fails), isDeep⟩
  · rcases Program.ofText_agrees source bound with same | ⟨early, fails, isDeep, -⟩
    · exact absurd (congrArg Program.failure? same).symm differ
    · exact ⟨early, .inr (congrArg Program.failure? fails), isDeep⟩

end Ways

/-! ## Judgements of a file -/

/-- How a file is judged by a check of a folder above it, by a check of the file itself, and by an
editor that opens it. -/
structure Judged (machine : Machine) (files : Files) (place : Path) (rest : Path) (wide : String)
    (narrow : String) (source : String) (failed : List (String × String × Failure))
    (failedAlone : List (String × String × Failure)) (notices : List Session.Notice) (outer : Limit)
    (inner : Limit) : Prop where
  /-- The check of the folder goes by the limit that holds for the folder. -/
  boundsFolder : Settings.Bounds machine files place outer
  byFolder : ∀ failure, (Path.join (Path.tidy wide) rest, source, failure) ∈ failed ↔
    Program.failure? (Program.ofText outer source) = some failure
  /-- The check of the file goes by the limit that holds for the file. -/
  boundsFile : Settings.Bounds machine files (place ++ rest) inner
  byFile : failedAlone = (Program.failure? (Program.ofText inner source)).toList.map
    fun failure => (Path.tidy narrow, source, failure)
  /-- So does the editor, and it shows something if and only if the check of the file does. -/
  byEditor : notices = (Program.failure? (Program.ofText inner source)).toList.map .ofFailure
  editorAgrees : notices ≠ [] ↔ failedAlone ≠ []
  /-- The two checks report the same about the file if and only if the two limits judge its text
  alike. -/
  alike : (∀ failure, (Path.join (Path.tidy wide) rest, source, failure) ∈ failed ↔
      (Path.tidy narrow, source, failure) ∈ failedAlone) ↔
    Program.failure? (Program.ofText outer source) = Program.failure? (Program.ofText inner source)
  /-- They do if no settings stand between the folder and the file. -/
  alikeIfBare : files.Sound →
    (∀ between, between ≠ [] → between <+: rest →
      files.get? (place ++ between ++ [Settings.fileName]) = none) →
    Program.failure? (Program.ofText outer source) = Program.failure? (Program.ofText inner source)
  /-- Where they do not, the text runs out of levels under one of the limits. -/
  alikeOrDeep : Program.failure? (Program.ofText outer source) =
      Program.failure? (Program.ofText inner source) ∨
    ∃ failure, (Program.failure? (Program.ofText outer source) = some failure ∨
        Program.failure? (Program.ofText inner source) = some failure) ∧
      failure.fault.code = "E202"

/-- A file in a folder with settings of its own, which admit two levels only. -/
def strictFolder : Console :=
  ⟨"", "", .ofList []
    [("p/a.cdr", "x = ((1))\n"), ("p/concorde.toml", "[parser]\nmax_depth = 2\n")]⟩

end Command

end Parlance
