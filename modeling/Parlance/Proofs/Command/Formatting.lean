import Parlance.Proofs.Command.Streams
import Parlance.Proofs.Files.Places

/-!
Contract: comparing source files foretells what changing them does.

Both go through the same files in the same order, and what is to be done about a file depends on its
text, on the settings and, if it is to be changed, on whether it is open for writing. If no two of
the names belong to one file, changing a file has no influence on the files behind it. The change
then does what the comparison foretells, up to the first file that is listed and locked: there it
breaks off, and the comparison goes on. Owns: the verdict on a file, the whole course of formatting
in terms of the verdicts on the tree as it was, and the theorem that relates the two modes. Does not
own: the canonical form.
-/

namespace Parlance.Command

open Console

/-! ## Verdicts -/

/-- What is to be done about a source file. -/
inductive Verdict where
  /-- The work cannot go on. -/
  | stop (crash : Crash)
  /-- The file is no program, which is reported. -/
  | broken
  /-- The file has its canonical form. -/
  | canonical
  /-- The file has another form than its canonical one. -/
  | differs (formatted : String)

section Verdicts

variable (machine : Machine) (style : Style) (settings : Settings) (mode : FormatMode)
  (files : Files)

/-- The verdict on a source file that is only compared. -/
def assess (unit : SourceUnit) : Verdict :=
  match unit.read files with
  | .error obstacle => .stop (.obstacle obstacle)
  | .ok source =>
    match reply machine settings source with
    | .unusable => .stop .unusable
    | .failure _ => .broken
    | .program program =>
      match canonical machine settings program with
      | .error crash => .stop crash
      | .ok formatted => if formatted == source then .canonical else .differs formatted

/-- The verdict on a source file. A file that is to be changed has to be open for writing. -/
def verdict (unit : SourceUnit) : Verdict :=
  match mode, assess machine settings files unit, files.barrier? unit.path with
  | .change, .differs _, some obstacle => .stop (.obstacle obstacle)
  | _, verdict, _ => verdict

def remark (unit : SourceUnit) : String :=
  match unit.read files with
  | .error _ => ""
  | .ok source =>
    readingRecord machine style settings unit.name source ++
      match reply machine settings source with
      | .failure failure => reported style unit.name source failure
      | .program _ | .unusable => ""

/-- What is found on the way through source files. -/
structure Course where
  /-- The files before any that the work stops at. -/
  judged : List SourceUnit
  /-- Those of them that have another form than their canonical one, with that one. -/
  rewritten : List (SourceUnit × String)
  /-- Whether any of them is no program. -/
  broken : Bool
  /-- What is written to the errors. -/
  remarks : String
  /-- Why the work stops, if it does. -/
  crash : Option Crash

/-- The course of formatting, as the verdicts on a tree have it. -/
def course : List SourceUnit → Course
  | [] => ⟨[], [], false, "", none⟩
  | unit :: rest =>
    let here := remark machine style settings files unit
    let later := course rest
    match verdict machine settings mode files unit with
    | .stop crash => ⟨[], [], false, here, some crash⟩
    | .broken => ⟨unit :: later.judged, later.rewritten, true, here ++ later.remarks, later.crash⟩
    | .canonical =>
      ⟨unit :: later.judged, later.rewritten, later.broken, here ++ later.remarks, later.crash⟩
    | .differs text =>
      ⟨unit :: later.judged, (unit, text) :: later.rewritten, later.broken, here ++ later.remarks,
        later.crash⟩

end Verdicts

/-- The names are names of different files. -/
def Apart (files : Files) (units : List SourceUnit) : Prop :=
  (units.map fun unit => files.home unit.path).Nodup

/-! ## The course of formatting -/

namespace FormatMode

/-- How the line about a file begins that has another form than its canonical one. -/
def opening : FormatMode → String
  | .compare => "would reformat "
  | .change => "formatted "

/-- What becomes of a tree. -/
def store (mode : FormatMode) (files : Files) (rewritten : List (SourceUnit × String)) : Files :=
  match mode with
  | .compare => files
  | .change =>
    rewritten.foldl (fun files row => files.put row.1.path (.file ⟨.text row.2, true⟩)) files

/-- Whether a file that has another form counts as a fault. -/
def objects (mode : FormatMode) (rewritten : List (SourceUnit × String)) : Bool :=
  match mode with
  | .compare => !rewritten.isEmpty
  | .change => false

end FormatMode

/-- The end of formatting, given what has been found on the way. -/
def Course.outcome (style : Style) (mode : FormatMode) (course : Course) (tally : FormatTally)
    (console : Console) : Outcome :=
  let lines := course.rewritten.map fun row => shown style (mode.opening ++ row.1.name)
  let faulty := course.crash.isSome || tally.broken || tally.listed || course.broken ||
    mode.objects course.rewritten
  ⟨⟨console.output ++ String.join lines, console.errors ++ course.remarks,
      mode.store console.files course.rewritten⟩,
    if faulty then 1 else 0, course.crash⟩

theorem readUnified_of_read {files : Files} {unit : SourceUnit} {source : String}
    (read : unit.read files = .ok source) : files.readUnified unit.path = .ok source := by
  unfold SourceUnit.read at read
  split at read
  · cases read
  · exact read

section Course

variable (machine : Machine) (style : Style) (settings : Settings) (mode : FormatMode)

/-- One file is read, and what is done about it follows from the verdict on it. -/
theorem formatUnits_cons (unit : SourceUnit) (rest : List SourceUnit) (tally : FormatTally)
    (console : Console) :
    formatUnits machine style settings mode (unit :: rest) tally console =
      let heard := console.addErrors (remark machine style settings console.files unit)
      match verdict machine settings mode console.files unit with
      | .stop crash => heard.abort crash
      | .broken =>
        formatUnits machine style settings mode rest { tally with broken := true } heard
      | .canonical => formatUnits machine style settings mode rest tally heard
      | .differs formatted =>
        match mode with
        | .compare =>
          formatUnits machine style settings mode rest { tally with listed := true }
            (heard.say style ("would reformat " ++ unit.name))
        | .change =>
          let files := console.files.put unit.path (.file ⟨.text formatted, true⟩)
          formatUnits machine style settings mode rest tally
            ({ heard with files }.say style ("formatted " ++ unit.name)) := by
  unfold verdict assess remark
  rw [formatUnits]
  cases read : unit.read console.files with
  | error obstacle => cases mode <;> simp [addErrors_empty]
  | ok source =>
    dsimp only
    rw [parseUnit_eq]
    cases reply machine settings source with
    | unusable => cases mode <;> simp
    | failure failure => cases mode <;> simp [report_eq, addErrors_addErrors]
    | program program =>
      dsimp only
      rw [String.append_empty]
      cases canonical machine settings program with
      | error crash => cases mode <;> rfl
      | ok text =>
        dsimp only
        by_cases same : text == source
        · rw [if_pos same, if_pos same]
          cases mode <;> rfl
        · rw [if_neg same, if_neg same]
          cases mode with
          | compare => rfl
          | change =>
            cases free : console.files.barrier? unit.path with
            | some obstacle => simp [Files.rewrite, free]
            | none =>
              have isText := readUnified_of_read read
              simp only [addErrors_files, Files.rewrite_of_read isText free]

/-- A change of one file has no influence on others. -/
theorem course_put {files : Files} {path : Path} {units : List SourceUnit} (node : Files.Node)
    (others : ∀ unit ∈ units, files.home unit.path ≠ files.home path) :
    course machine style settings mode (files.put path node) units =
      course machine style settings mode files units := by
  induction units with
  | nil => rfl
  | cons unit rest ih =>
    obtain ⟨other, others⟩ := List.forall_mem_cons.mp others
    have kept := files.get?_put_of_ne other node
    have sameText : unit.read (files.put path node) = unit.read files := by
      simp only [SourceUnit.read, Files.readUnified, Files.read, kept]
    have sameBarrier : (files.put path node).barrier? unit.path = files.barrier? unit.path := by
      simp only [Files.barrier?, kept]
    simp only [course, verdict, assess, remark, sameText, sameBarrier, ih others]

/-- The whole course of formatting follows from the verdicts on the tree as it was, if the names that
are changed are names of different files. -/
theorem formatUnits_eq (units : List SourceUnit) (tally : FormatTally) (console : Console)
    (apart : mode = .change → Apart console.files units) :
    formatUnits machine style settings mode units tally console =
      (course machine style settings mode console.files units).outcome style mode tally
        console := by
  induction units generalizing tally console with
  | nil => cases mode <;> simp [formatUnits, Course.outcome, course, FormatMode.objects,
      FormatMode.store, exit]
  | cons unit rest ih =>
    have further : ∀ tally (next : Console), next.files.links = console.files.links →
        formatUnits machine style settings mode rest tally next =
          (course machine style settings mode next.files rest).outcome style mode tally next := by
      intro tally next sameLinks
      refine ih tally next fun changes => ?_
      have later := (List.nodup_cons.mp (apart changes)).2
      simpa only [Apart, Files.home, sameLinks] using later
    rw [formatUnits_cons, course]
    cases verdict machine settings mode console.files unit with
    | stop crash =>
      cases mode <;> simp [Course.outcome, abort, FormatMode.objects, FormatMode.store, addErrors]
    | broken | canonical =>
      dsimp only
      rw [further]
      · simp [Course.outcome, String.append_assoc]
      · rfl
    | differs text =>
      cases mode with
      | compare =>
        dsimp only
        rw [further]
        · simp [Course.outcome, String.append_assoc, say, FormatMode.objects, FormatMode.store,
            FormatMode.opening]
        · rfl
      | change =>
        have others : ∀ other ∈ rest,
            console.files.home other.path ≠ console.files.home unit.path := by
          intro other member same
          refine (List.nodup_cons.mp (apart rfl)).1 ?_
          exact List.mem_map.mpr ⟨other, member, same⟩
        dsimp only
        rw [further]
        · simp [Course.outcome, String.append_assoc, say, FormatMode.objects, FormatMode.store,
            FormatMode.opening, course_put _ _ _ _ _ others]
        · rfl

end Course

section Behind

variable {machine : Machine} {style : Style} {settings : Settings} {mode : FormatMode}
  {files : Files} {units : List SourceUnit} {rewritten : List (SourceUnit × String)}

theorem get?_store_of_ne (files : Files) (path : Path)
    (others : ∀ row ∈ rewritten, files.home row.1.path ≠ files.home path) :
    (FormatMode.change.store files rewritten).get? path = files.get? path := by
  induction rewritten generalizing files with
  | nil => rfl
  | cons row rest ih =>
    have inRest := ih (files.put row.1.path (.file ⟨.text row.2, true⟩))
      fun other member => others other (List.mem_cons_of_mem row member)
    have apart := (others row List.mem_cons_self).symm
    exact inRest.trans (files.get?_put_of_ne apart _)

theorem get?_store_of_mem (files : Files) {row : SourceUnit × String}
    (apart : (rewritten.map fun row => files.home row.1.path).Nodup)
    (below : ∀ row ∈ rewritten, row.1.path ≠ []) (member : row ∈ rewritten) :
    (FormatMode.change.store files rewritten).get? row.1.path =
      some (.file ⟨.text row.2, true⟩) := by
  induction rewritten generalizing files with
  | nil => cases member
  | cons first rest ih =>
    obtain ⟨fresh, apartRest⟩ := List.nodup_cons.mp apart
    rcases List.mem_cons.mp member with isFirst | inRest
    · subst isFirst
      have kept := get?_store_of_ne (files.put row.1.path (.file ⟨.text row.2, true⟩)) row.1.path
        fun other inRest same => fresh (List.mem_map.mpr ⟨other, inRest, same⟩)
      exact kept.trans (files.get?_put_self (below row List.mem_cons_self) rfl _)
    · exact ih (files.put first.1.path (.file ⟨.text first.2, true⟩)) apartRest
        (fun other inRest => below other (List.mem_cons_of_mem first inRest)) inRest

theorem judged_eq_self (completes : (course machine style settings mode files units).crash = none) :
    (course machine style settings mode files units).judged = units := by
  induction units with
  | nil => rfl
  | cons unit rest ih =>
    unfold course at completes ⊢
    cases isVerdict : verdict machine settings mode files unit with
    | stop crash => simp [isVerdict] at completes
    | broken | canonical | differs =>
      simp only [isVerdict] at completes ⊢
      rw [ih completes]

/-- The file that the work stops at stands behind the judged ones. -/
theorem exists_stop {crash : Crash}
    (stops : (course machine style settings mode files units).crash = some crash) :
    ∃ unit rest,
      units = (course machine style settings mode files units).judged ++ unit :: rest ∧
        verdict machine settings mode files unit = .stop crash := by
  induction units with
  | nil => cases stops
  | cons unit rest ih =>
    unfold course at stops ⊢
    cases isVerdict : verdict machine settings mode files unit with
    | stop cause =>
      simp only [isVerdict, Option.some.injEq] at stops
      subst stops
      exact ⟨unit, rest, rfl, isVerdict⟩
    | broken | canonical | differs =>
      simp only [isVerdict] at stops
      obtain ⟨found, others, split, isStop⟩ := ih stops
      exact ⟨found, others, congrArg (unit :: ·) split, isStop⟩

theorem rewritten_sublist (machine : Machine) (style : Style) (settings : Settings)
    (mode : FormatMode) (files : Files) (units : List SourceUnit) :
    ((course machine style settings mode files units).rewritten.map Prod.fst).Sublist units := by
  induction units with
  | nil => exact .slnil
  | cons unit rest ih =>
    unfold course
    cases verdict machine settings mode files unit with
    | stop => exact List.nil_sublist _
    | broken | canonical => exact ih.cons unit
    | differs => exact ih.cons_cons unit

/-- A file has another form than its canonical one if it is a program whose canonical form is not
its text. -/
structure Differs (machine : Machine) (settings : Settings) (files : Files)
    (row : SourceUnit × String) (source : String) (program : Program Span) : Prop where
  read : row.1.read files = .ok source
  isProgram : reply machine settings source = .program program
  isCanonical : canonical machine settings program = .ok row.2
  other : row.2 ≠ source

theorem exists_of_verdict {unit : SourceUnit} {text : String}
    (differs : verdict machine settings mode files unit = .differs text) :
    ∃ source program, Differs machine settings files (unit, text) source program := by
  have assessed : assess machine settings files unit = .differs text := by
    unfold verdict at differs
    split at differs
    · cases differs
    · exact differs
  unfold assess at assessed
  cases read : unit.read files with
  | error obstacle => simp [read] at assessed
  | ok source =>
    simp only [read] at assessed
    cases isReply : reply machine settings source with
    | unusable | failure => simp [isReply] at assessed
    | program program =>
      simp only [isReply] at assessed
      cases isCanonical : canonical machine settings program with
      | error crash => simp [isCanonical] at assessed
      | ok formatted =>
        simp only [isCanonical] at assessed
        by_cases same : formatted = source
        · simp [same] at assessed
        · simp only [beq_iff_eq, same, ↓reduceIte, Verdict.differs.injEq] at assessed
          subst assessed
          exact ⟨source, program, read, isReply, isCanonical, same⟩

theorem exists_of_mem_rewritten {row : SourceUnit × String}
    (member : row ∈ (course machine style settings mode files units).rewritten) :
    ∃ source program, Differs machine settings files row source program := by
  induction units with
  | nil => cases member
  | cons unit rest ih =>
    unfold course at member
    cases isVerdict : verdict machine settings mode files unit with
    | stop => simp [isVerdict] at member
    | broken | canonical =>
      simp only [isVerdict] at member
      exact ih member
    | differs text =>
      simp only [isVerdict, List.mem_cons] at member
      rcases member with rfl | later
      · exact exists_of_verdict isVerdict
      · exact ih later

theorem Differs.ne_nil {row : SourceUnit × String} {source : String} {program : Program Span}
    (differs : Differs machine settings files row source program) :
    row.1.path ≠ [] := by
  intro isRoot
  obtain ⟨text, writable, stands, -⟩ :=
    Files.exists_of_readUnified (readUnified_of_read differs.read)
  rw [isRoot] at stands
  cases stands

end Behind

/-! ## From one mode to the other -/

section Modes

variable (machine : Machine) (style : Style) (settings : Settings) (files : Files)
  (units : List SourceUnit)

/-- Whether a file that is to be rewritten is open for writing. -/
def isFree (files : Files) (row : SourceUnit × String) : Bool :=
  (files.barrier? row.1.path).isNone

/-- One file in both modes: the verdicts agree, or the file is to be rewritten and locked. -/
inductive InBothModes (unit : SourceUnit) : Prop where
  | agree
      (same : verdict machine settings .change files unit =
        verdict machine settings .compare files unit)
      (free : ∀ text, verdict machine settings .compare files unit = .differs text →
        isFree files (unit, text) = true)
  | locked
      (text : String)
      (obstacle : Files.Obstacle)
      (barred : files.barrier? unit.path = some obstacle)
      (differs : verdict machine settings .compare files unit = .differs text)
      (stops : verdict machine settings .change files unit = .stop (.obstacle obstacle))

theorem inBothModes (unit : SourceUnit) : InBothModes machine settings files unit := by
  cases isVerdict : assess machine settings files unit with
  | stop | broken | canonical =>
    refine .agree (by simp only [verdict, isVerdict]) fun text differs => ?_
    simp [verdict, isVerdict] at differs
  | differs text =>
    cases barred : files.barrier? unit.path with
    | none =>
      exact .agree (by simp only [verdict, isVerdict, barred]) fun _ _ => by simp [isFree, barred]
    | some obstacle =>
      exact .locked text obstacle barred (by simp only [verdict, isVerdict])
        (by simp only [verdict, isVerdict, barred])

/-- What is found when files are changed goes by what is found when they are compared. -/
structure Cuts (foreseen carried : Course) : Prop where
  /-- The listed files are rewritten, up to the first that is locked. -/
  rewritten : carried.rewritten = foreseen.rewritten.takeWhile (isFree files)
  /-- If none is locked, the same is found all the way. -/
  free : (∀ row ∈ foreseen.rewritten, isFree files row = true) → carried = foreseen
  /-- At the first listed file that is locked the work stops, and what has been reported is what the
  comparison has reported by then. -/
  locked : ∀ row, foreseen.rewritten.find? (fun row => !isFree files row) = some row →
    ∃ obstacle more, files.barrier? row.1.path = some obstacle ∧
      carried.crash = some (.obstacle obstacle) ∧ foreseen.remarks = carried.remarks ++ more

theorem cuts_course :
    Cuts files (course machine style settings .compare files units)
      (course machine style settings .change files units) := by
  induction units with
  | nil => exact ⟨rfl, fun _ => rfl, nofun⟩
  | cons unit rest ih =>
    unfold course
    cases inBothModes machine settings files unit with
    | agree same free =>
      rw [same]
      cases isVerdict : verdict machine settings .compare files unit with
      | stop => exact ⟨rfl, fun _ => rfl, nofun⟩
      | broken | canonical =>
        refine ⟨ih.rewritten, fun all => by rw [ih.free all], fun row first => ?_⟩
        obtain ⟨obstacle, more, barred, crashes, goesOn⟩ := ih.locked row first
        exact ⟨obstacle, more, barred, crashes, by simp only [goesOn, String.append_assoc]⟩
      | differs text =>
        have isOpen := free text isVerdict
        refine ⟨by simp [isOpen, ih.rewritten], fun all => ?_, fun row first => ?_⟩
        · rw [ih.free (List.forall_mem_cons.mp all).2]
        · obtain ⟨obstacle, more, barred, crashes, goesOn⟩ :=
            ih.locked row (by simpa [isOpen] using first)
          exact ⟨obstacle, more, barred, crashes, by simp only [goesOn, String.append_assoc]⟩
    | locked text obstacle barred differs stops =>
      rw [differs, stops]
      have isLocked : isFree files (unit, text) = false := by simp [isFree, barred]
      refine ⟨by simp [isLocked], fun all => ?_, fun row first => ?_⟩
      · simp [isLocked] at all
      · obtain rfl : (unit, text) = row := by simpa [isLocked] using first
        exact ⟨obstacle, _, barred, rfl, rfl⟩

end Modes

/-! ## Comparing and changing -/

section Foretelling

variable (machine : Machine) (style : Style) (settings : Settings)

/-- How the work on source files ends in one of the modes, if it takes the given course. -/
structure Ends (mode : FormatMode) (console : Console) (units : List SourceUnit) (course : Course)
    (outcome : Outcome) : Prop where
  /-- One line is written for each file that has another form than its canonical one. -/
  output : outcome.console.output = console.output ++
    String.join (course.rewritten.map fun row => shown style (mode.opening ++ row.1.name))
  errors : outcome.console.errors = console.errors ++ course.remarks
  crash : outcome.crash = course.crash
  /-- Work that does not break off judges all files, and its exit code tells whether any is no program
  or, in a comparison, listed. -/
  completed : course.crash = none → course.judged = units ∧
    outcome.exitCode = if course.broken || mode.objects course.rewritten then 1 else 0
  /-- Work that breaks off does so at the first file that cannot be judged, or not be written. -/
  stopped : ∀ crash, course.crash = some crash → outcome.exitCode = 1 ∧ ∃ unit rest,
    units = course.judged ++ unit :: rest ∧
      verdict machine settings mode console.files unit = .stop crash

theorem ends_outcome (mode : FormatMode) (console : Console) (units : List SourceUnit) :
    Ends machine style settings mode console units
      (course machine style settings mode console.files units)
      ((course machine style settings mode console.files units).outcome style mode ⟨false, false⟩
        console) where
  output := rfl
  errors := rfl
  crash := rfl
  completed completes := ⟨judged_eq_self completes, by simp [Course.outcome, completes]⟩
  stopped crash stops := ⟨by simp [Course.outcome, stops], exists_stop stops⟩

/-- What a change of source files does, beside what a comparison of them does. -/
structure Changes (console : Console) (units : List SourceUnit) (foreseen carried : Course)
    (changed : Outcome) : Prop where
  ends : Ends machine style settings .change console units carried changed
  cuts : Cuts console.files foreseen carried
  /-- A rewritten file holds its canonical form. -/
  rewritten : ∀ row ∈ carried.rewritten,
    changed.console.files.get? row.1.path = some (.file ⟨.text row.2, true⟩)
  /-- Every other file is as it was. -/
  kept : ∀ path, (∀ row ∈ carried.rewritten,
      console.files.home row.1.path ≠ console.files.home path) →
    changed.console.files.get? path = console.files.get? path

theorem formatUnits_changes (console : Console) {units : List SourceUnit}
    (apart : Apart console.files units) :
    Changes machine style settings console units
      (course machine style settings .compare console.files units)
      (course machine style settings .change console.files units)
      (formatUnits machine style settings .change units ⟨false, false⟩ console) := by
  rw [formatUnits_eq _ _ _ .change _ _ _ fun _ => apart]
  refine ⟨ends_outcome machine style settings .change console units,
    cuts_course machine style settings console.files units, fun row member => ?_,
    fun path others => get?_store_of_ne _ path others⟩
  refine get?_store_of_mem _ ?_ (fun other isMember => ?_) member
  · have among := (rewritten_sublist machine style settings .change console.files units).map
      fun unit => console.files.home unit.path
    rw [List.map_map] at among
    exact apart.sublist among
  · obtain ⟨source, program, differs⟩ := exists_of_mem_rewritten isMember
    exact differs.ne_nil

/-- How a comparison of the source files at a place and a change of the same files go together, with
the courses that they take. The change is told of only if no two names belong to one file, as they do
not where no file has several names. -/
structure Foretells (console : Console) (units : List SourceUnit) (foreseen carried : Course)
    (compared changed : Outcome) : Prop where
  ends : Ends machine style settings .compare console units foreseen compared
  /-- Comparing changes no file. -/
  untouched : compared.console.files = console.files
  /-- The files that are listed are programs with another form than their canonical one. -/
  listed : ∀ row ∈ foreseen.rewritten,
    ∃ source program, Differs machine settings console.files row source program
  changes : Apart console.files units →
    Changes machine style settings console units foreseen carried changed
  unlinked : console.files.links = [] → Apart console.files units

theorem apart_of_unlinked {files : Files} {place : Path} {text : String} {units : List SourceUnit}
    (found : unitsAt files place text = .ok units) (unlinked : files.links = []) :
    Apart files units := by
  simpa only [Apart, Files.home, unlinked, List.lookup_nil, Option.getD_none] using
    nodup_unitsAt found

theorem formatUnits_foretells (console : Console) {place : Path} {text : String}
    {units : List SourceUnit} (found : unitsAt console.files place text = .ok units) :
    Foretells machine style settings console units
      (course machine style settings .compare console.files units)
      (course machine style settings .change console.files units)
      (formatUnits machine style settings .compare units ⟨false, false⟩ console)
      (formatUnits machine style settings .change units ⟨false, false⟩ console) := by
  have compares := formatUnits_eq machine style settings .compare units ⟨false, false⟩ console nofun
  refine ⟨compares ▸ ends_outcome machine style settings .compare console units,
    by rw [compares]; rfl,
    fun row => exists_of_mem_rewritten, formatUnits_changes machine style settings console,
    apart_of_unlinked found⟩

end Foretelling

/-- Why formatting breaks off before it comes to any file. -/
inductive Unstarted (files : Files) (folder : Path) (path : String) : Crash → Prop where
  | unnameable (isNone : Path.isNameable path = false) : Unstarted files folder path .unnameable
  | settings {place : Path} {fault : Settings.Fault} (leads : files.reach folder path = .ok place)
      (ungoverned : Settings.governing files place = .error fault) :
      Unstarted files folder path (.settings fault)
  | units {place : Path} {obstacle : Files.Obstacle} (leads : files.reach folder path = .ok place)
      (unlisted : unitsAt files place path = .error obstacle) :
      Unstarted files folder path (.obstacle obstacle)

/-- A path that leads to nothing that can be read. -/
def LeadsNowhere (files : Files) (folder : Path) (path : String) : Prop :=
  Path.isNameable path = true ∧ ((∃ obstacle, files.reach folder path = .error obstacle) ∨
    ∃ place, files.reach folder path = .ok place ∧ files.isClosed place = true)

/-- A file that is not open for writing, and another that has two names. -/
def lockedAndLinked : Console :=
  let files := (Files.empty.put ["a.cdr"] (.file ⟨.text "x  = 1\n", false⟩)).addFolder ["p"]
  let shared := files.put ["p", "b.cdr"] (.file ⟨.text "y  = 1\n", true⟩)
  ⟨"", "", shared.link ["p", "c.cdr"] ["p", "b.cdr"]⟩

end Parlance.Command
