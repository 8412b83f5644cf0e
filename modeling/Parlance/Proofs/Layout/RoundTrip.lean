import Parlance.Proofs.Grammar.Acceptance
import Parlance.Proofs.Layout.Printer
import Parlance.Proofs.Layout.Reprinting

/-!
Contract: the canonical text of a program is read back as the program.

Owns: the words that a whole page is read as, the theorem that a program survives being written and
read exactly if no assignment to several names in it is misplaced, and when it can be written. The
nesting limit is the same both times: the printed words are derived within the levels of the words
that the program was read from.
-/

namespace Parlance

open Grammar Layout Lexeme

variable {program : Program Span}

/-! ## Pages -/

namespace Layout

/-- A page as one layout: each statement has a line break behind it, and some have two. -/
def pageLayout : List Row → Layout
  | [] => []
  | [last] => last.layout ++ [.line 0]
  | row :: next :: rest =>
    let gap : Layout := if row.declares || next.declares then [.line 0, .line 0] else [.line 0]
    row.layout ++ (gap ++ pageLayout (next :: rest))

theorem chars_pageLayout (width : Int) (rows : List Row) :
    (pageLayout rows).chars width = pageChars width rows := by
  have feed : Item.chars width (.line 0) = ['\n'] := by simp [Item.chars]
  fun_induction pageLayout rows with
  | case1 => rfl
  | case2 last => simp [pageChars, feed]
  | case3 row next rest gap ih =>
    simp only [pageChars, chars_append, ih]
    congr 2
    cases declares : row.declares || next.declares <;> simp [gap, declares, feed]

/-- Behind a statement stand one or two line breaks, and then the others. -/
theorem pageLayout_cons (row : Row) (rest : List Row) :
    ∃ gap : Layout, (gap = [.line 0] ∨ gap = [.line 0, .line 0]) ∧
      pageLayout (row :: rest) = row.layout ++ (gap ++ pageLayout rest) := by
  cases rest with
  | nil => exact ⟨[.line 0], .inl rfl, rfl⟩
  | cons next rest =>
    refine ⟨if row.declares || next.declares then [.line 0, .line 0] else [.line 0], ?_, rfl⟩
    cases row.declares || next.declares with
    | true => exact .inr rfl
    | false => exact .inl rfl

end Layout

/-- The words that a page is read as, and what they say about its statements. -/
structure PagePrints (levels : Nat) (width : Int) (body : List (Stmt Unit))
    (rows : List (List Lexeme)) (words : List Lexeme) : Prop where
  scans : ∀ last, last.any Kind.endsOperand = false →
    (pageLayout (Program.rows ⟨body, ()⟩)).Scans width last words []
  /-- A page ends with a line break. -/
  ends : ∀ last, lastKind last words = last ∨ lastKind last words = some .newline
  derives : Stmt.misplacedAll body = 0 → Derives levels (.lines .program) words .endOfInput body
  parens : parens words = parens rows.flatten

theorem exists_pagePrints {levels : Nat} (width : Int) {body : List (Stmt Unit)}
    {rows : List (List Lexeme)} (each : List.Forall₂ (LinePrints levels 0) body rows) :
    ∃ words, PagePrints levels width body rows words := by
  induction each with
  | nil => exact ⟨[], fun _ _ => .nil, fun _ => .inl rfl, fun _ => .noLine rfl, rfl⟩
  | cons first others ih =>
    rename_i stmt row body rows
    obtain ⟨words, page⟩ := ih
    have behind := page.scans (some .newline) rfl
    have ends : lastKind (some .newline) words = some .newline := by
      simpa using page.ends (some .newline)
    obtain ⟨gap, isGap, layout⟩ := pageLayout_cons ⟨stmt.declares, stmt.layout 0⟩
      (Program.rows ⟨body, ()⟩)
    -- A second line break is an empty line before the rest of the page.
    obtain ⟨tail, scans, clear, endsTail, derives, parens⟩ : ∃ tail,
        (∀ last, Scans width last (gap ++ pageLayout (Program.rows ⟨body, ()⟩))
          (.lineBreak :: tail) []) ∧
        Clear (chars width (gap ++ pageLayout (Program.rows ⟨body, ()⟩)) ++ []) ∧
        lastKind (some .newline) tail = some .newline ∧
        (Derives levels (.lines .program) words .endOfInput body →
          Derives levels (.lines .program) tail .endOfInput body) ∧
        Grammar.parens tail = Grammar.parens words := by
      rcases isGap with rfl | rfl
      · exact ⟨words, fun _ => .line behind, .feed _, ends, id, rfl⟩
      · exact ⟨.lineBreak :: words, fun _ => .line (.line behind), .feed _, ends,
          fun rest => .emptyLine rfl rest, by simp⟩
    refine ⟨row ++ .lineBreak :: tail, fun last starts => ?_, fun last => .inr ?_,
      fun placed => ?_, ?_⟩
    · have whole := first.reads.andThen starts clear (scans _)
      rwa [← layout] at whole
    · rw [lastKind_append]
      exact endsTail
    · obtain ⟨placedFirst, placedBody⟩ := Nat.add_eq_zero_iff.mp placed
      exact .line (first.derives placedFirst) rfl (derives (page.derives placedBody))
    · simp [parens, page.parens]

/-! ## Reading a page -/

theorem Reading.ByPieces.legible {last : Option Kind} {here : Position} {text : List Char}
    {reading : Reading} (read : ByPieces last here text reading) :
    ∀ token ∈ reading.tokens, token.lexeme.Legible ∧ token.kind ≠ .endOfInput := by
  induction read with
  | ended =>
    intro token member
    unfold Reading.close at member
    split at member
    · simp at member
    · simp at member
    · obtain rfl := List.mem_singleton.mp member
      exact ⟨.inl rfl, by simp⟩
  | fault => simp
  | gap _ _ _ legible => exact legible
  | lineBreak _ _ _ legible => exact List.forall_mem_cons.mpr ⟨⟨.inl rfl, by simp⟩, legible⟩
  | word _ spelled _ legible =>
    exact List.forall_mem_cons.mpr ⟨⟨.inr ⟨_, spelled⟩, spelled.kind_ne.2⟩, legible⟩

theorem Reading.ofText_legible (source : String) :
    ∀ token ∈ (Reading.ofText source).tokens,
      token.lexeme.Legible ∧ token.kind ≠ .endOfInput :=
  (Reading.ofText_byPieces source).legible

/-- Behind a line break, or where no token stands, nothing is added at the end of a text. -/
theorem Reading.readOn_nil {last : Option Kind} (closed : last = none ∨ last = some .newline)
    (here : Position) :
    Reading.readOn last here 0 [] = ⟨[], .finished (.point here)⟩ := by
  rcases closed with rfl | rfl <;> rfl

theorem Program.reading_page {levels : Nat} {words : List Lexeme} (width : Int)
    (derives : Derives levels (.lines .program) words .endOfInput (program.body.map Stmt.shape))
    (legible : ∀ word ∈ words, word.Legible) :
    ∃ rows tokens there,
      PagePrints levels width (program.body.map Stmt.shape) rows (tokens.map Token.lexeme) ∧
        parens rows.flatten + Stmt.misplacedAll (program.body.map Stmt.shape) ≤ parens words ∧
        Reading.ofText (program.format width) =
          Reading.precede tokens ⟨[], .finished (.point there)⟩ := by
  obtain ⟨rows, each, count⟩ := derives.printable legible 0
  obtain ⟨printed, page⟩ := exists_pagePrints width each
  have layout : program.rows = Program.rows ⟨program.body.map Stmt.shape, ()⟩ := by
    rw [← Program.rows_shape, ← Program.shape_body]
  obtain ⟨tokens, there, rfl, read⟩ := (page.scans none rfl).reads .start
  rw [List.append_nil, chars_pageLayout, ← layout, Reading.readOn_nil (page.ends none)] at read
  refine ⟨rows, tokens, there, page, count, ?_⟩
  rw [Reading.ofText, Program.format, Layout.page, String.toList_ofList, read]

theorem Program.reading_format {levels : Nat} {words : List Lexeme} (width : Int)
    (derives : Derives levels (.nestedLines .program) words .endOfInput
      (program.body.map Stmt.shape)) (legible : ∀ word ∈ words, word.Legible) :
    (∃ span, (Reading.ofText (program.format width)).ending = .finished span) ∧
      (program.misplaced = 0 → Derives levels (.nestedLines .program)
        ((Reading.ofText (program.format width)).tokens.map Token.lexeme) .endOfInput
        (program.body.map Stmt.shape)) ∧
      parens ((Reading.ofText (program.format width)).tokens.map Token.lexeme) +
        program.misplaced ≤ parens words := by
  cases derives with
  | nestedLines inner =>
    obtain ⟨rows, tokens, there, page, count, whole⟩ := Program.reading_page width inner legible
    have misplaced : program.misplaced = Stmt.misplacedAll (program.body.map Stmt.shape) := by
      rw [← Program.misplaced_shape, Program.misplaced, Program.shape_body]
    rw [whole, misplaced]
    simp only [Reading.precede_tokens, Reading.precede_ending, List.append_nil]
    refine ⟨⟨_, rfl⟩, fun placed => .nestedLines (page.derives placed), ?_⟩
    rw [page.parens]
    exact count

theorem Program.derives_of_ofText {limit : Limit} {source : String}
    (read : Program.ofText limit source = .ok program) :
    Derives limit.depth (.nestedLines .program)
        ((Reading.ofText source).tokens.map Token.lexeme) .endOfInput
        (program.body.map Stmt.shape) ∧
      ∀ word ∈ (Reading.ofText source).tokens.map Token.lexeme, word.Legible := by
  have legible := Reading.ofText_legible source
  obtain ⟨-, derives⟩ :=
    Program.derives_of_ofReading (fun token member => (legible token member).2) read
  refine ⟨derives, fun word member => ?_⟩
  obtain ⟨token, inside, rfl⟩ := List.mem_map.mp member
  exact (legible token inside).1

/-- If nothing is misplaced, the canonical text of a program is read back under the same limit. -/
theorem Program.ofText_format_of_placed {limit : Limit} {source : String} (width : Int)
    (read : Program.ofText limit source = .ok program) (placed : program.misplaced = 0) :
    ∃ again, Program.ofText limit (program.format width) = .ok again ∧
      program.same again = true := by
  obtain ⟨derives, legible⟩ := Program.derives_of_ofText read
  obtain ⟨⟨span, ending⟩, printed, -⟩ := Program.reading_format width derives legible
  obtain ⟨again, accepted, shape⟩ := Program.ofReading_of_derives ending (printed placed)
  exact ⟨again, accepted, (Program.same_iff_shape_eq program again).mpr shape.symm⟩

/-- If the canonical text of a program is read back as the program, nothing is misplaced: a text of
the same program holds at least one parenthesis more for each misplaced assignment, and here the
text is its own canonical text. -/
theorem Program.placed_of_ofText_format {limit : Limit} {again : Program Span} (width : Int)
    (readAgain : Program.ofText limit (program.format width) = .ok again)
    (same : program.same again = true) : program.misplaced = 0 := by
  obtain ⟨derives, legible⟩ := Program.derives_of_ofText readAgain
  rw [← (Program.same_iff_shape_eq program again).mp same] at derives
  obtain ⟨-, -, count⟩ := Program.reading_format width derives legible
  omega

/-- The canonical text of a program is read back as the program exactly if no assignment to several
names in it is misplaced. -/
theorem Program.ofText_format_iff_placed (limit : Limit) (source : String) (width : Int)
    (program : Program Span) (read : Program.ofText limit source = .ok program) :
    (∃ again, Program.ofText limit (program.format width) = .ok again ∧
        program.same again = true) ↔
      program.misplaced = 0 :=
  ⟨fun ⟨_, readAgain, same⟩ => Program.placed_of_ofText_format width readAgain same,
    Program.ofText_format_of_placed width read⟩

/-- In the body of a one-line closure, names in parentheses lose them and are not read back. -/
theorem Program.format_loses_names_in_closure :
    ∃ program, Program.ofText .standard "f = fn x -> (a, b) = x end\n" = .ok program ∧
      program.misplaced = 1 ∧
      ¬ ∃ again, Program.ofText .standard (program.format 2) = .ok again ∧
        program.same again = true := by
  have passes : ((Program.ofText .standard "f = fn x -> (a, b) = x end\n").toOption.any
      fun program => program.misplaced == 1) = true := by decide +kernel
  obtain ⟨program, read, misplaced⟩ := Program.exists_of_any passes
  have isOne : program.misplaced = 1 := beq_iff_eq.mp misplaced
  refine ⟨program, read, isOne, fun readBack => ?_⟩
  have placed := (Program.ofText_format_iff_placed .standard _ 2 program read).mp readBack
  omega

/-! ## Writing -/

/-- A program in which nothing is misplaced is written, and is read back under the same limit, exactly
if a machine word counts the spaces before each of its lines and the machine has room for it. -/
theorem Program.write_reads_back_iff (limit : Limit) (source : String) (machine : Machine)
    (width : Int) (program : Program Span) (read : Program.ofText limit source = .ok program)
    (placed : program.misplaced = 0) :
    (∃ text again, program.write machine (some width) = .ok text ∧
        Program.ofText limit text = .ok again ∧ program.same again = true) ↔
      Draft.Countable width program.drafts ∧ Draft.Room machine width program.drafts := by
  rw [← program.exists_write_iff]
  constructor
  · rintro ⟨text, again, written, -⟩
    exact ⟨text, written⟩
  · rintro ⟨text, written⟩
    obtain ⟨again, readAgain, same⟩ := Program.ofText_format_of_placed width read placed
    obtain rfl : text = program.format width := (Program.write_ok written).1
    exact ⟨_, again, written, readAgain, same⟩

/-- A block cannot be written with an indentation that is not countable, not even below zero. -/
theorem Program.write_block_uncountable :
    ∃ program, Program.ofText .standard "if a\nb\nend\n" = .ok program ∧ program.misplaced = 0 ∧
      program.write .roomy (some (-9223372036854775809)) = .error .uncountable := by
  have passes : ((Program.ofText .standard "if a\nb\nend\n").toOption.any fun program =>
      program.misplaced == 0 &&
        decide (program.write .roomy (some (-9223372036854775809)) = .error .uncountable)) =
      true := by
    decide +kernel
  obtain ⟨program, read, both⟩ := Program.exists_of_any passes
  rw [Bool.and_eq_true, beq_iff_eq, decide_eq_true_iff] at both
  exact ⟨program, read, both⟩

/-- Names in a branch that fills a line, a minus sign before a number and a tuple of one element are
written and read back. -/
theorem Program.write_reads_back_branch :
    ∃ program, Program.ofText .standard "if x\n(a, b) = - 1\nif y then c, d = (-2,)\nend\n" =
        .ok program ∧
      ∃ text again, program.write .roomy (some 4) = .ok text ∧
        Program.ofText .standard text = .ok again ∧ program.same again = true := by
  have passes : ((Program.ofText .standard
      "if x\n(a, b) = - 1\nif y then c, d = (-2,)\nend\n").toOption.any fun program =>
      program.misplaced == 0 && (program.write .roomy (some 4)).toOption.isSome) = true := by
    decide +kernel
  obtain ⟨program, read, both⟩ := Program.exists_of_any passes
  rw [Bool.and_eq_true, beq_iff_eq] at both
  have written : ∃ text, program.write .roomy (some 4) = .ok text := by
    cases outcome : program.write .roomy (some 4) with
    | error fault => simp [outcome, Except.toOption] at both
    | ok text => exact ⟨text, rfl⟩
  exact ⟨program, read, (Program.write_reads_back_iff .standard _ .roomy 4 program read both.1).mpr
    (program.exists_write_iff.mp written)⟩

end Parlance
