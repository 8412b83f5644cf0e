import Parlance.Diagnostic.Viewer
import Parlance.Proofs.Files.Places

/-!
Contract: the text that a diagnostic is shown against.

The text registered last for a file goes before what stands in the file tree, and of the file tree
only what stood there when the file was first shown and could be read counts. A file that holds no
text is no such case: its diagnostic is not shown, and it is looked up again the next time. Owns: this
text, told from the steps before a diagnostic, and that no other step has a part in it. Does not own:
how a diagnostic is laid out against a line.
-/

namespace Parlance

open Sources (found)

/-! ## What the file tree holds -/

namespace Files

/-- What a look-up finds in a file of some content. -/
def Content.sighted : Content → Except Obstacle (Option String)
  | .text value => .ok (some (unified value))
  | .garbled => .error .garbled
  | .closed => .ok none

theorem links_addFolders (files : Files) (here : Path) (names : List String) :
    (files.addFolders here names).links = files.links := by
  induction names generalizing files here with
  | nil => rfl
  | cons name rest ih =>
    rw [addFolders, ih, addFolder]
    split <;> rfl

/-- What a look-up under a name finds: nothing if the name leads nowhere or to a folder, and else the
content of the file that it leads to. So it finds what was written to that file, by whichever of the
file's names. -/
structure LooksUp (files : Files) (folder : Path) (name : String) : Prop where
  nowhere : ∀ obstacle, files.reach folder (Path.tidy name) = .error obstacle →
    files.sourceText folder name = .ok none
  atFolder : ∀ place, files.reach folder (Path.tidy name) = .ok place →
    files.get? place = some .folder → files.sourceText folder name = .ok none
  atFile : ∀ place file, files.reach folder (Path.tidy name) = .ok place →
    files.get? place = some (.file file) → files.sourceText folder name = file.content.sighted
  written : ∀ path content place, place ≠ [] → files.home place = files.home path →
    (files.write path content).reach folder (Path.tidy name) = .ok place →
      (files.write path content).sourceText folder name = content.sighted

theorem looksUp (files : Files) (folder : Path) (name : String) : files.LooksUp folder name := by
  have ofFile : ∀ (files : Files) place file, files.reach folder (Path.tidy name) = .ok place →
      files.get? place = some (.file file) →
        files.sourceText folder name = file.content.sighted := by
    intro files place file leads stands
    obtain ⟨content, writable⟩ := file
    cases content <;>
      simp only [sourceText, leads, readUnified, read, stands, Except.map, Content.sighted]
  refine ⟨fun obstacle leads => ?_, fun place leads stands => ?_, ofFile files, ?_⟩
  · simp only [sourceText, leads]
  · simp only [sourceText, leads, readUnified, read, stands, Except.map]
  · intro path content place below sameFile leads
    have kept : ∀ wanted, (files.addFolders [] path.dropLast).home wanted = files.home wanted := by
      intro wanted
      rw [home, home, links_addFolders]
    have stands : (files.write path content).get? place = some (.file ⟨content, true⟩) :=
      get?_put_self _ below (by rw [kept, kept, sameFile]) _
    exact ofFile _ place _ leads stands

end Files

/-! ## Files seen -/

namespace Sources

variable (sources : Sources) (file wanted : String)

theorem get?_put (lines : List (List Char)) :
    (sources.put file lines).get? wanted =
      if wanted == file then some lines else sources.get? wanted := by
  simp only [get?, put, List.lookup_cons]
  cases wanted == file <;> rfl

end Sources

namespace Viewer

/-! ## What steps have to do with a file -/

def Step.registers? (file : String) : Step → Option String
  | .register other text => if other == file then some text else none
  | _ => none

def Step.shows (file : String) : Step → Bool
  | .render diagnostic => diagnostic.location.file == file
  | _ => false

def Step.written (files : Files) : Step → Files
  | .write path content => files.write path content
  | _ => files

/-- Whether a step writes to the file tree, or registers or shows the given file. -/
def Step.concerns (file : String) : Step → Bool
  | .register other _ => other == file
  | .write _ _ => true
  | .render diagnostic => diagnostic.location.file == file

def registered? (file : String) (steps : List Step) : Option String :=
  steps.reverse.findSome? (Step.registers? file)

/-- What the file tree holds for a file at each step that shows a diagnostic in it. -/
def sightings (folder : Path) (file : String) :
    Files → List Step → List (Except Files.Obstacle (Option String))
  | _, [] => []
  | files, step :: rest =>
    if step.shows file then files.sourceText folder file :: sightings folder file files rest
    else sightings folder file (step.written files) rest

/-- The text that a diagnostic in a file is shown against behind a row of steps: the one registered
last, or else what was found when the file could first be read, or else what is found now. -/
def textBehind (folder : Path) (files : Files) (steps : List Step)
    (file : String) : Except Files.Obstacle (Option String) :=
  match registered? file steps with
  | some text => .ok (some text)
  | none =>
    match (sightings folder file files steps).findSome? Except.toOption with
    | some text => .ok text
    | none => (steps.foldl Step.written files).sourceText folder file

def lineIn (text : Option String) (number : Int) : Option String :=
  if 1 ≤ number then
    text.bind fun text => ((Text.lines text.toList)[(number - 1).toNat]?).map String.ofList
  else none

/-- A diagnostic against the line of a text that it starts in. -/
def shownAgainst (palette : Palette) (diagnostic : Diagnostic) (text : Option String) : String :=
  diagnostic.render palette (lineIn text diagnostic.location.span.startLine)

section

variable (palette : Palette) (folder : Path) (viewer : Viewer) (file : String)

theorem registered?_cons (step : Step) (rest : List Step) :
    registered? file (step :: rest) = (registered? file rest).or (step.registers? file) := by
  rw [registered?, List.reverse_cons, List.findSome?_append, List.findSome?_singleton]
  rfl

/-! ## One step -/

/-- Of all steps only writing changes the file tree. -/
theorem act_files (step : Step) :
    (viewer.act palette folder step).2.files = step.written viewer.files := by
  cases step with
  | register | write => rfl
  | render diagnostic =>
    unfold act
    dsimp only
    split <;> rfl

theorem line?_eq {sources : Sources} {text : Option String}
    (seen : sources.get? file = some (found text)) (number : Int) :
    sources.line? file number = lineIn text number := by
  unfold Sources.line? lineIn
  rw [seen]
  cases text <;> simp [found]

theorem act_render_seen {diagnostic : Diagnostic} {text : Option String}
    (seen : viewer.sources.get? diagnostic.location.file = some (found text)) :
    viewer.act palette folder (.render diagnostic) =
      (some (.ok (shownAgainst palette diagnostic text)), viewer) := by
  simp only [act, Sources.render, Sources.visit, seen, line?_eq _ seen, shownAgainst]

/-- A diagnostic in a file that has not been seen is shown against what is found now, and nothing is
kept of a file that holds no text. -/
theorem act_render_unseen {diagnostic : Diagnostic}
    (unseen : viewer.sources.get? diagnostic.location.file = none) :
    viewer.act palette folder (.render diagnostic) =
      (some ((viewer.files.sourceText folder diagnostic.location.file).map
          (shownAgainst palette diagnostic)),
        match viewer.files.sourceText folder diagnostic.location.file with
        | .ok text =>
          { viewer with sources := viewer.sources.put diagnostic.location.file (found text) }
        | .error _ => viewer) := by
  simp only [act, Sources.render, Sources.visit, unseen]
  cases viewer.files.sourceText folder diagnostic.location.file with
  | error obstacle => rfl
  | ok text =>
    have seen : (viewer.sources.put diagnostic.location.file (found text)).get?
        diagnostic.location.file = some (found text) := by simp [Sources.get?_put]
    simp only [line?_eq _ seen, Except.map, shownAgainst]

/-- What is kept for a file behind a step: what the step registers for it, or else what was kept
before, or else what the step finds in the file tree. -/
theorem get?_act (step : Step) :
    (viewer.act palette folder step).2.sources.get? file =
      ((step.registers? file).map (Text.lines ·.toList)).or ((viewer.sources.get? file).or
        (if step.shows file then (viewer.files.sourceText folder file).toOption.map found
          else none)) := by
  cases step with
  | register other text =>
    rw [act, Sources.add, Sources.get?_put, Step.registers?]
    by_cases same : other = file
    · simp [same]
    · simp [same, Ne.symm same, Step.shows]
  | write path content => simp [act, Step.registers?, Step.shows]
  | render diagnostic =>
    simp only [Step.shows, Step.registers?, Option.map_none, Option.none_or]
    cases known : viewer.sources.get? diagnostic.location.file with
    | some lines =>
      have kept : (viewer.act palette folder (.render diagnostic)).2.sources = viewer.sources := by
        simp only [act, Sources.render, Sources.visit, known]
      rw [kept]
      by_cases same : diagnostic.location.file = file
      · rw [← same, known, Option.some_or]
      · simp [same]
    | none =>
      rw [act_render_unseen palette folder viewer known]
      by_cases same : diagnostic.location.file = file
      · rw [← same, known]
        cases viewer.files.sourceText folder diagnostic.location.file with
        | ok text => simp [Sources.get?_put, Except.toOption]
        | error obstacle => simp [known, Except.toOption]
      · cases viewer.files.sourceText folder diagnostic.location.file <;>
          simp [Sources.get?_put, same, Ne.symm same]

/-! ## A row of steps -/

theorem run_append (front back : List Step) :
    viewer.run palette folder (front ++ back) =
      ((viewer.run palette folder front).1 ++
          ((viewer.run palette folder front).2.run palette folder back).1,
        ((viewer.run palette folder front).2.run palette folder back).2) := by
  induction front generalizing viewer with
  | nil => rfl
  | cons step rest ih => simp only [List.cons_append, run, ih]

theorem length_run (steps : List Step) :
    (viewer.run palette folder steps).1.length = steps.length := by
  induction steps generalizing viewer with
  | nil => rfl
  | cons step rest ih => simp only [run, List.length_cons, ih]

theorem run_files (steps : List Step) :
    (viewer.run palette folder steps).2.files = steps.foldl Step.written viewer.files := by
  induction steps generalizing viewer with
  | nil => rfl
  | cons step rest ih => rw [run, List.foldl_cons, ← act_files palette folder, ← ih]

/-- What is kept for a file behind a row of steps: what was registered last, or else what was kept
before, or else what was found when the file could first be read. -/
theorem get?_run (steps : List Step) :
    (viewer.run palette folder steps).2.sources.get? file =
      ((registered? file steps).map (Text.lines ·.toList)).or ((viewer.sources.get? file).or
        (((sightings folder file viewer.files steps).findSome? Except.toOption).map found)) := by
  induction steps generalizing viewer with
  | nil => simp [run, registered?, sightings]
  | cons step rest ih =>
    rw [run]
    dsimp only
    rw [ih, get?_act, act_files, registered?_cons, sightings]
    have unwritten : step.shows file = true → step.written viewer.files = viewer.files := by
      cases step <;> simp [Step.shows, Step.written]
    cases shown : step.shows file with
    | false =>
      cases registered? file rest <;> cases step.registers? file <;>
        cases viewer.sources.get? file <;> simp
    | true =>
      rw [unwritten shown]
      cases viewer.files.sourceText folder file <;> cases registered? file rest <;>
        cases step.registers? file <;> cases viewer.sources.get? file <;>
          simp [List.findSome?_cons, Except.toOption]

theorem run_render (files : Files) (before after : List Step) (diagnostic : Diagnostic) :
    (run palette folder ⟨files, .empty⟩ (before ++ .render diagnostic :: after)).1[before.length]? =
      some (some ((textBehind folder files before diagnostic.location.file).map
        (shownAgainst palette diagnostic))) := by
  rw [run_append]
  dsimp only
  rw [List.getElem?_append_right (Nat.le_of_eq (length_run ..)), length_run, Nat.sub_self, run]
  simp only [List.getElem?_cons_zero, Option.some_inj]
  generalize isBehind : (run palette folder ⟨files, .empty⟩ before).2 = behind
  have kept := get?_run palette folder ⟨files, .empty⟩ diagnostic.location.file before
  have trees := run_files palette folder ⟨files, .empty⟩ before
  rw [isBehind] at kept trees
  unfold textBehind
  cases isRegistered : registered? diagnostic.location.file before with
  | some text =>
    have seen : behind.sources.get? diagnostic.location.file = some (found (some text)) := by
      rw [kept, isRegistered]
      rfl
    rw [act_render_seen palette folder behind seen]
    rfl
  | none =>
    have nothing : (Sources.empty.get? diagnostic.location.file) = none := rfl
    simp only [isRegistered, nothing, Option.map_none, Option.none_or] at kept
    cases isSeen : (sightings folder diagnostic.location.file files before).findSome?
        Except.toOption with
    | some text =>
      rw [isSeen, Option.map_some] at kept
      rw [act_render_seen palette folder behind kept]
      rfl
    | none =>
      rw [isSeen, Option.map_none] at kept
      rw [act_render_unseen palette folder behind kept, trees]

theorem Step.apart_of_not_concerns {file : String} (step : Step)
    (other : step.concerns file = false) :
    step.registers? file = none ∧ step.shows file = false ∧
      ∀ files, step.written files = files := by
  cases step with
  | register | render => simp_all [Step.concerns, Step.registers?, Step.shows, Step.written]
  | write => cases other

/-- Registering and showing other files has no part in the text of a file. -/
theorem textBehind_filter (files : Files) (steps : List Step) :
    textBehind folder files (steps.filter (·.concerns file)) file =
      textBehind folder files steps file := by
  have behind : registered? file (steps.filter (·.concerns file)) = registered? file steps ∧
      ∀ files, sightings folder file files (steps.filter (·.concerns file)) =
          sightings folder file files steps ∧
        (steps.filter (·.concerns file)).foldl Step.written files =
          steps.foldl Step.written files := by
    induction steps with
    | nil => exact ⟨rfl, fun _ => ⟨rfl, rfl⟩⟩
    | cons step rest ih =>
      cases concerned : step.concerns file with
      | true => simp [concerned, registered?_cons, sightings, ih]
      | false =>
        obtain ⟨unregistered, hidden, unwritten⟩ := step.apart_of_not_concerns concerned
        simp [concerned, registered?_cons, sightings, unregistered, hidden, unwritten, ih]
  obtain ⟨texts, trees⟩ := behind
  rw [textBehind, textBehind, texts, (trees files).1, (trees files).2]

/-- The file tree at the first step that shows a diagnostic in a file, and behind all steps if there
is none. -/
def filesWhenFirstShown (files : Files) (steps : List Step) : Files :=
  (steps.takeWhile (!·.shows file)).foldl Step.written files

/-- If the file can be read when it is first shown, that showing alone counts. -/
theorem textBehind_of_readable (files : Files) (steps : List Step) {text : Option String}
    (readable : (filesWhenFirstShown file files steps).sourceText folder file = .ok text) :
    textBehind folder files steps file = .ok ((registered? file steps).or text) := by
  have first : ((sightings folder file files steps).findSome? Except.toOption).or
      ((steps.foldl Step.written files).sourceText folder file).toOption = some text := by
    induction steps generalizing files with
    | nil => simpa [sightings, filesWhenFirstShown, Except.toOption] using
        congrArg Except.toOption readable
    | cons step rest ih =>
      unfold filesWhenFirstShown at readable
      rw [List.takeWhile_cons] at readable
      rw [sightings]
      cases shown : step.shows file with
      | true =>
        have isText : files.sourceText folder file = .ok text := by simpa [shown] using readable
        simp [isText, List.findSome?_cons, Except.toOption]
      | false =>
        rw [shown] at readable
        exact ih (step.written files) readable
  unfold textBehind
  cases registered? file steps with
  | some registered => rfl
  | none =>
    cases seen : (sightings folder file files steps).findSome? Except.toOption with
    | some sighted =>
      rw [seen, Option.some_or] at first
      exact congrArg Except.ok (Option.some.inj first)
    | none =>
      rw [seen, Option.none_or] at first
      cases isNow : (steps.foldl Step.written files).sourceText folder file with
      | error obstacle => simp [isNow, Except.toOption] at first
      | ok now =>
        rw [isNow] at first
        exact congrArg Except.ok (Option.some.inj first)

end

/-- **The text of a diagnostic.** In every run each diagnostic is shown against the text that was
registered last for its file, and without one against what was found when a diagnostic in this file
was first shown and the file could be read; if that never was, and is not now, it is not shown. So
what stood in the file tree at the first showing counts, whatever is written later, unless the file
held no text then. The same comes of it if all steps that register or show other files are left out,
and showing a diagnostic leaves the file tree as it is. -/
theorem run_shows_text (palette : Palette) (folder : Path) (files : Files)
    (before after : List Step) (diagnostic : Diagnostic) :
    let file := diagnostic.location.file
    let shown := (textBehind folder files before file).map (shownAgainst palette diagnostic)
    let kept := before.filter (·.concerns file)
    (run palette folder ⟨files, .empty⟩ (before ++ .render diagnostic :: after)).1[before.length]? =
        some (some shown) ∧
      (∀ text, (filesWhenFirstShown file files before).sourceText folder file = .ok text →
        shown = .ok (shownAgainst palette diagnostic ((registered? file before).or text))) ∧
      (run palette folder ⟨files, .empty⟩ (kept ++ [.render diagnostic])).1[kept.length]? =
        some (some shown) ∧
      (run palette folder ⟨files, .empty⟩ (before ++ [.render diagnostic])).2.files =
        (run palette folder ⟨files, .empty⟩ before).2.files ∧
      ∀ tree : Files, tree.LooksUp folder file := by
  intro file shown kept
  refine ⟨run_render palette folder files before after diagnostic, fun text readable => ?_, ?_, ?_,
    fun tree => tree.looksUp folder file⟩
  · have isText := textBehind_of_readable folder file files before readable
    show (textBehind folder files before file).map _ = _
    rw [isText]
    rfl
  · rw [run_render, textBehind_filter]
  · rw [run_files, run_files, List.foldl_append]
    rfl

/-- A diagnostic in a file that holds no text when it is first shown, and that is written before the
diagnostic is shown again. -/
theorem run_shows_text_written_later :
    let files := Files.empty.write ["a.cdr"] .garbled
    let diagnostic : Diagnostic := ⟨"E201", "m", ⟨"a.cdr", ⟨1, 1, 1, 1, 0⟩⟩, []⟩
    let steps := [.render diagnostic, .write ["a.cdr"] (.text "x\r\n"), .render diagnostic]
    (run .none [] ⟨files, .empty⟩ steps).1[0]? = some (some (.error .garbled)) ∧
      (run .none [] ⟨files, .empty⟩ steps).1[2]? =
        some (some (.ok (shownAgainst .none diagnostic (some "x\n")))) := by
  intro files diagnostic steps
  have never : textBehind [] files [] "a.cdr" = .error .garbled := rfl
  have later : textBehind [] files (steps.take 2) "a.cdr" = .ok (some "x\n") := rfl
  have first := (run_shows_text .none [] files [] (steps.drop 1) diagnostic).1
  have second := (run_shows_text .none [] files (steps.take 2) [] diagnostic).1
  exact ⟨first.trans (by rw [never]; rfl), second.trans (by rw [later]; rfl)⟩

end Viewer

end Parlance
