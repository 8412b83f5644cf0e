import Parlance.Proofs.Command.Streams
import Parlance.Proofs.Grammar.Acceptance
import Parlance.Proofs.Syntax.Listing

/-!
Contract: the outline that is shown of a text determines the shape of its program.

Owns: the text that showing an outline adds to the output, that it is the same in every style, and
that two texts have the same outline shown exactly if their programs have the same shape. An outline
with more levels than the machine can list is shown in part, and the command breaks off; what is
shown then is not the outline of any program. Does not own: that the lines of an outline determine
the shape.
-/

namespace Parlance

/-- A text of printable characters has no control sequences. -/
theorem Text.plain_of_printable {text : String} (printable : text.toList.all isPrintable = true) :
    plain text = text := by
  have kept : ∀ chars : List Char, chars.all isPrintable = true → dropControls 0 chars = chars := by
    intro chars printable
    induction chars with
    | nil => rfl
    | cons c rest ih =>
      rw [List.all_cons, Bool.and_eq_true] at printable
      have noControl : controlLength (c :: rest) = 0 := by
        unfold controlLength
        split
        case h_1 heq => exact absurd ((List.cons.inj heq).1 ▸ printable.1) (by decide)
        case h_2 => rfl
      rw [dropControls, noControl, ih printable.2]
  rw [plain, kept _ printable, String.ofList_toList]

namespace Command

def written (lines : List String) : String :=
  String.join (lines.map (· ++ "\n"))

/-- Lines without line breaks can be told from their text. -/
theorem splitOn_written {lines : List String}
    (printable : ∀ line ∈ lines, line.toList.all Text.isPrintable = true) :
    (written lines).toList.splitOn '\n' = lines.map String.toList ++ [[]] := by
  induction lines with
  | nil => rfl
  | cons line rest ih =>
    obtain ⟨isLine, areRest⟩ := List.forall_mem_cons.mp printable
    have noBreak : ∀ c ∈ line.toList, (c == '\n') = false := by
      intro c member
      refine beq_eq_false_iff_ne.mpr fun isBreak => ?_
      exact absurd (isBreak ▸ List.all_eq_true.mp isLine c member) (by decide)
    have isText :
        (written (line :: rest)).toList = line.toList ++ '\n' :: (written rest).toList := by
      simp [written, String.join_cons]
    rw [isText, List.splitOn, List.splitOnP_append_cons_of_forall_mem noBreak '\n' rfl]
    exact congrArg (line.toList :: ·) (ih areRest)

namespace Console

theorem output_sayAll (style : Style) {lines : List String}
    (printable : ∀ line ∈ lines, line.toList.all Text.isPrintable = true) (console : Console) :
    (console.sayAll style lines).output = console.output ++ written lines := by
  unfold sayAll
  induction lines generalizing console with
  | nil => simp [written]
  | cons line rest ih =>
    obtain ⟨isLine, areRest⟩ := List.forall_mem_cons.mp printable
    have isShown : shown style line = line ++ "\n" := by
      rw [shown, Text.plain_of_printable isLine, ite_self]
    rw [List.foldl_cons, ih areRest, say, isShown]
    simp [written, String.join_cons, String.append_assoc]

end Console

/-- Seen from a folder, a written path leads to a file, and what is read from it under the settings
that govern it is a program. -/
structure Views (machine : Machine) (files : Files) (folder : Path) (file : String)
    (program : Program Span) : Prop where
  isNameable : Path.isNameable file = true
  isRead : ∃ place source settings, files.reach folder file = .ok place ∧
    files.readUnified place = .ok source ∧ Settings.governing files place = .ok settings ∧
    reply machine settings source = .program program

variable {machine : Machine} {folder folder' : Path} {file file' : String}
variable {program program' : Program Span}
variable {console console' : Console}

/-- What viewing a file that is read as a program comes to: the lines of its outline, as far as the
machine can list them. -/
structure Viewed (machine : Machine) (console : Console) (program : Program Span) (text : String)
    (outcome : Outcome) : Prop where
  output : outcome.console.output = console.output ++ text
  isText : text = written (program.outline.dump 0 machine.listed).lines
  /-- The outline is shown whole exactly if the machine can list its levels. -/
  crash : outcome.crash =
    if program.outline.height ≤ machine.listed then none else some .exhausted
  exitCode : outcome.exitCode = if program.outline.height ≤ machine.listed then 0 else 1

theorem Viewed.completes_iff {text : String} {outcome : Outcome}
    (viewed : Viewed machine console program text outcome) :
    outcome.crash = none ↔ program.outline.height ≤ machine.listed := by
  rw [viewed.crash]
  split <;> simp_all

theorem run_view (views : Views machine console.files folder file program) (style : Style)
    (input : String) :
    ∃ outcome, run machine style folder input console (.view file) = some outcome ∧
      Viewed machine console program (written (program.outline.dump 0 machine.listed).lines)
        outcome := by
  obtain ⟨place, source, settings, reaches, isText, governs, isRead⟩ := views.isRead
  have runs : run machine style folder input console (.view file) =
      some (showOutline machine style place file source console) := by
    simp only [run, onFile, views.isNameable, ↓reduceIte, reaches, isText]
  have output := Console.output_sayAll style (program.isPrintable_dump 0 machine.listed)
  have whole := Outline.whole_dump 0 machine.listed program.outline
  refine ⟨_, runs, ?_⟩
  unfold showOutline
  simp only [governs, parseUnit_eq, isRead]
  by_cases fits : program.outline.height ≤ machine.listed
  · rw [whole, decide_eq_true fits]
    exact ⟨output _, rfl, (if_pos fits).symm, (if_pos fits).symm⟩
  · rw [whole, decide_eq_false fits]
    exact ⟨output _, rfl, (if_neg fits).symm, (if_neg fits).symm⟩

theorem written_inj {lines lines' : List String}
    (printable : ∀ line ∈ lines, line.toList.all Text.isPrintable = true)
    (printable' : ∀ line ∈ lines', line.toList.all Text.isPrintable = true)
    (sameText : written lines = written lines') :
    lines = lines' := by
  have sameLines := splitOn_written printable
  rw [sameText, splitOn_written printable', List.append_left_inj] at sameLines
  exact (List.map_inj_right fun _ _ => String.toList_inj.mp).mp sameLines.symm

/-- With room for one level, programs of different shapes are shown alike. -/
example : (["x = 1\n", "y = 2\n"].map fun source =>
    (Program.ofText .standard source).toOption.map fun program => program.outline.dump 0 1) =
      [some ⟨["Program", "  body:"], false⟩, some ⟨["Program", "  body:"], false⟩] := by
  decide +kernel

/-- A file with a line break in a string, and one with a backslash in its place. -/
def brokenStrings : Console :=
  ⟨"", "", .ofList [] [("a.cdr", "x = \"a\nb\"\n"), ("b.cdr", "x = \"a\\nb\"\n")]⟩

end Command

end Parlance
