import Parlance.Diagnostic.Sources
import Parlance.Proofs.Grammar.FirstFault
import Parlance.Proofs.Grammar.Limits
import Parlance.Proofs.Token.Joints

/-!
Contract: the source line and the carets that a failure is shown with.

A failure stands in a row of its source. Owns: that it starts where two pieces of the text meet, and
which line is shown for it: the line with the number of the row, with the carets at the column of the
failure. The line is the row if no row above has a break inside it and the row has none.
-/

namespace Parlance

/-! ## The start of a failure -/

theorem Span.startsAt_through_iff {first last : Span} {here : Position} :
    (first.through last).StartsAt here ↔ first.StartsAt here :=
  ⟨fun starts => ⟨starts.line, starts.column, starts.offset⟩,
    fun starts => ⟨starts.line, starts.column, starts.offset⟩⟩

theorem Program.joins_of_ofText_error {limit : Limit} {source : String} {failure : Failure}
    (fails : ofText limit source = .error failure) :
    ∃ before after here, here.Joins source.toList before after ∧ failure.span.StartsAt here := by
  have places := Reading.ofText_atJoints source
  have begun := Reading.readOn_begun none .start source.toList
  have byStart : ∀ first last : Span,
      (∃ before after here, here.Joins source.toList before after ∧
        (first.through last).StartsAt here) ↔
      ∃ before after here, here.Joins source.toList before after ∧ first.StartsAt here := by
    simp only [Span.startsAt_through_iff, implies_true]
  exact span_of_failure byStart (fun token member => (places.tokens token member).place)
    places.finished (fun cause isBroken => ⟨(begun.broken cause isBroken).1,
      places.broken cause isBroken⟩) fails

/-! ## What is shown -/

namespace Diagnostic

/-- The frame before a line without a number is narrower than the one before a numbered line. -/
theorem length_bareGutter_le (line : Int) :
    (bareGutter .none).length + 2 ≤ (numberedGutter .none line).length := by
  have bare : (bareGutter .none).length = 6 := by decide
  have fixed : "  ".length = 2 ∧ "".length = 0 ∧ " |".length = 2 := by decide
  rw [bare, numberedGutter]
  simp only [Palette.framed, Palette.none, String.length_append, String.length_ofList,
    List.length_replicate, fixed]
  omega

theorem lines_some (diagnostic : Diagnostic) (shown : String) :
    diagnostic.lines .none (some shown) =
      [diagnostic.headLine .none, diagnostic.placeLine .none, bareGutter .none,
        numberedGutter .none diagnostic.location.span.startLine ++ " " ++ shown] ++
      (if diagnostic.location.span.startLine = diagnostic.location.span.endLine then
        [caretLine .none diagnostic.location.span] else []) ++
      diagnostic.notes.map (noteLine .none) := by
  unfold lines excerpt
  dsimp only
  split <;> simp

/-- The carets of a span begin below its first column, behind the frame. -/
theorem caretLine_eq {span : Span} {column : Nat} (isColumn : span.startColumn = column + 1) :
    ∃ carets, caretLine .none span =
      bareGutter .none ++ " " ++ String.ofList (List.replicate column ' ' ++ '^' :: carets) := by
  obtain ⟨width, isWidth⟩ : ∃ width,
      (max 1 (span.endColumn - span.startColumn + 1)).toNat = width + 1 :=
    ⟨(max 1 (span.endColumn - span.startColumn + 1)).toNat - 1, by omega⟩
  have isPadding : (span.startColumn - 1).toNat = column := by omega
  refine ⟨List.replicate width '^', ?_⟩
  unfold caretLine
  dsimp only
  rw [isWidth, isPadding, List.replicate_succ, String.ofList_append]
  simp [Palette.none, String.append_assoc]

end Diagnostic

/-- A diagnostic about a registered text is shown against the line of the text with its number. -/
theorem Sources.render_add {ε : Type} {source file : String} {diagnostic : Diagnostic}
    {number : Nat} {shown : List Char} (sources : Sources)
    (lookUp : String → Except ε (Option String)) (isFile : diagnostic.location.file = file)
    (isNumber : diagnostic.location.span.startLine = number + 1)
    (isLine : (Text.lines source.toList)[number]? = some shown) :
    (sources.add file source).render .none lookUp diagnostic =
      .ok (diagnostic.render .none (some (String.ofList shown)), sources.add file source) := by
  have known : (sources.add file source).get? file = some (Text.lines source.toList) :=
    List.lookup_cons_self
  have visited : (sources.add file source).visit lookUp file = .ok (sources.add file source) := by
    rw [visit, known]
  have line : (sources.add file source).line? file (number + 1) = some (String.ofList shown) := by
    rw [line?, if_pos (by omega), known]
    simp [isLine]
  simp only [render, isFile, isNumber, visited, line]

/-- How a failure of a text is shown, told from the row in which it starts. -/
structure Shown (source file : String) (failure : Failure) (rendered : String)
    (before after : List Char) (above : List (List Char)) (front back : List Char)
    (below : List (List Char)) (shown : List Char) : Prop where
  whole : source.toList = before ++ after
  offset : failure.span.offset = before.length
  division : Text.Division before after above front back below
  /-- The source line stands behind its number. If the failure lies on one line, carets begin below
  the column that it starts in, each counted behind its own frame. -/
  rendered : ∃ carets, rendered = "\n".intercalate (
    [(Diagnostic.ofFailure file failure).headLine .none,
      (Diagnostic.ofFailure file failure).placeLine .none, Diagnostic.bareGutter .none,
      Diagnostic.numberedGutter .none (above.length + 1) ++ " " ++ String.ofList shown] ++
    (if failure.span.startLine = failure.span.endLine then
      [Diagnostic.bareGutter .none ++ " " ++
        String.ofList (List.replicate front.length ' ' ++ '^' :: carets)] else []) ++
    failure.fault.notes.map (Diagnostic.noteLine .none))
  /-- The frame of the carets is the narrower one, so that the carets stand to the left. -/
  narrower : (Diagnostic.bareGutter .none).length + 2 ≤
    (Diagnostic.numberedGutter .none (above.length + 1)).length
  /-- In its row the failure starts with the character of its offset. -/
  column : startsBreak after = false →
    (front ++ back)[front.length]? = source.toList[before.length]?
  /-- The line shown is the one that has the number of the row. -/
  isLine : (Text.lines source.toList)[above.length]? = some shown
  /-- The row itself begins so many lines further down as there are breaks in the rows above. -/
  begins : (Text.lines source.toList)[above.length + Text.strays above]? =
    some ((front ++ back).takeWhile (!Text.isLineBreak ·))
  /-- Where the rows above are unbroken, the row is shown exactly if it is unbroken too. -/
  right : Text.strays above = 0 →
    (shown = front ++ back ↔ ∀ c ∈ front ++ back, Text.isLineBreak c = false)

/-- **The source line of a failure.** A failure inside a text is shown with the line that has the
number of the row in which it starts. This is the row itself exactly if the row is unbroken, unless
there are breaks in the rows above: then it is a line above the row. -/
theorem Program.render_ofText_error {ε : Type} {limit : Limit} {source : String} {failure : Failure}
    (file : String) (sources : Sources) (lookUp : String → Except ε (Option String))
    (fails : Program.ofText limit source = .error failure)
    (inside : failure.span.offset < source.length) :
    ∃ rendered seen, (sources.add file source).render .none lookUp (.ofFailure file failure) =
        .ok (rendered, seen) ∧
      ∃ before after above front back below shown,
        Shown source file failure rendered before after above front back below shown := by
  obtain ⟨before, after, here, joins, starts⟩ := joins_of_ofText_error fails
  obtain ⟨above, front, back, below, division⟩ := Text.exists_division joins.joint.apart
  rw [joins.place, Position.afterAll_start] at starts
  have isLine : failure.span.startLine = above.length + 1 := by
    rw [starts.line, division.line]
    rfl
  have isColumn : failure.span.startColumn = front.length + 1 := by
    rw [starts.column, division.column]
    rfl
  have offset : failure.span.offset = before.length := starts.offset
  have isRow : Text.rows source.toList = above ++ (front ++ back) :: below := by
    rw [joins.whole, division.whole]
  have filled : after ≠ [] := by
    rintro rfl
    have := congrArg List.length joins.whole
    rw [List.append_nil, String.length_toList] at this
    omega
  have begins := Text.lines_row isRow (division.filled filled)
  have early : above.length < (Text.lines source.toList).length := by
    obtain ⟨inLines, -⟩ := List.getElem?_eq_some_iff.mp begins
    omega
  have isShown := List.getElem?_eq_getElem early
  have isFile : (Diagnostic.ofFailure file failure).location.file = file := rfl
  have isNumber : (Diagnostic.ofFailure file failure).location.span.startLine =
      above.length + 1 := isLine
  obtain ⟨carets, areCarets⟩ := Diagnostic.caretLine_eq isColumn
  refine ⟨_, _, sources.render_add lookUp isFile isNumber isShown, before, after, above, front,
    back, below, _, joins.whole, offset, division, ⟨carets, ?_⟩,
    Diagnostic.length_bareGutter_le _, fun noBreak => ?_, isShown, begins, fun noStrays => ?_⟩
  · rw [Diagnostic.render, Diagnostic.lines_some, isNumber, ← areCarets, isLine]
    rfl
  · rw [division.head_back noBreak, joins.whole]
  · rw [noStrays, Nat.add_zero, isShown, Option.some_inj] at begins
    rw [begins, List.takeWhile_eq_self_iff]
    simp only [Bool.not_eq_true']

def unseen : String → Except Empty (Option String) := fun _ => .ok none

/-- Below a comment with a form feed in it, a failure is shown with a part of the comment. -/
theorem Program.render_ofText_error_misses :
    ∃ failure rendered seen, Program.ofText .standard "# a\x0cb\nx y\n" = .error failure ∧
      (Sources.empty.add "mem" "# a\x0cb\nx y\n").render .none unseen (.ofFailure "mem" failure) =
        .ok (rendered, seen) ∧
      rendered = "error[E201]: expected end of line after statement, found identifier 'y'\n" ++
        "  --> mem:2:3\n     |\n     2 | b\n     |   ^" ∧
      ∃ before after above front back below shown, Shown "# a\x0cb\nx y\n" "mem" failure rendered
        before after above front back below shown := by
  have fails : Program.ofText .standard "# a\x0cb\nx y\n" =
      .error ⟨.unexpected .lineEnd ⟨.name, "y", "", ⟨2, 3, 2, 3, 8⟩⟩,
        ⟨2, 3, 2, 3, 8⟩⟩ := Program.eq_error_of_failure? (by decide +kernel)
  obtain ⟨rendered, seen, isRendered, isShown⟩ :=
    Program.render_ofText_error "mem" .empty unseen fails (by decide)
  refine ⟨_, rendered, seen, fails, isRendered, ?_, isShown⟩
  have text : ((Sources.empty.add "mem" "# a\x0cb\nx y\n").render .none unseen
      (.ofFailure "mem" ⟨.unexpected .lineEnd ⟨.name, "y", "", ⟨2, 3, 2, 3, 8⟩⟩,
        ⟨2, 3, 2, 3, 8⟩⟩)).toOption.map Prod.fst =
      some ("error[E201]: expected end of line after statement, found identifier 'y'\n" ++
        "  --> mem:2:3\n     |\n     2 | b\n     |   ^") := by decide +kernel
  simpa [isRendered, Except.toOption] using text

end Parlance
