import Parlance.Proofs.Grammar.Levels
import Parlance.Proofs.Grammar.RetraceRules

/-!
Contract: a row of tokens is read as a program exactly if the grammar derives that program.

Owns: the theorem for rows of tokens under any limit that is large enough, and its two halves for
readings under the number of levels that the limit allows, which the round trip through the layout
uses. The end of the input stands behind the last token of a reading and is not among its tokens.
-/

namespace Parlance

open Grammar Lexeme

variable {reading : Reading} {limit : Limit} {stop : Token} {span : Span} {next : Cursor}
variable {body : List (Stmt Unit)}

theorem Program.shape_eq_iff {program : Program Span} {shape : Program Unit} :
    program.shape = shape ↔ program.body.map Stmt.shape = shape.body := by
  obtain ⟨body, mark⟩ := shape
  rw [← Program.shape_body]
  constructor
  · intro same
    rw [same]
  · rintro rfl
    rfl

/-- What the run over a program and the end of the input behind it comes to. -/
theorem Grammar.runs_programParts (limit : Limit) {kind : Kind} {last : Span} :
    (programParts limit).Runs kind last
      (fun taken next parts =>
        LinesOf limit.depth (Derives limit.depth (.nestedLines .program)) taken next parts.1)
      (Viable (limit.depth + 1) (.nestedLines .program)) :=
  (runs_program limit).bindLast (fun _ viable => viable) fun _ _ _ _ linesOf =>
    .bindPeek fun _ _ => .pure ⟨rfl, linesOf⟩

theorem Grammar.programParts_derives {body : List (Stmt Span)}
    (inside : ∀ token ∈ reading.tokens, token.kind ≠ .endOfInput)
    (run : (programParts limit).run (.ofReading reading) = .ok ((body, stop), next)) :
    next.tokens = [] ∧
      Derives limit.depth (.nestedLines .program) (reading.tokens.map Token.lexeme) .endOfInput
        (body.map Stmt.shape) := by
  obtain ⟨taken, leaves, linesOf⟩ := (runs_programParts limit _ rfl rfl).leaves _ _ run
  have same : reading.tokens = taken ++ next.tokens := leaves.tokens
  have ended : next.kind = .endOfInput := by
    simpa [Block.endsAt] using linesOf.words.endsAt .program (.inr rfl)
  have nothing : next.tokens = [] := by
    cases tokens : next.tokens with
    | nil => rfl
    | cons token rest =>
      have member : token ∈ reading.tokens := by simp [same, tokens]
      exact absurd ((Cursor.kind_of_tokens tokens).symm.trans ended) (inside token member)
  refine ⟨nothing, ?_⟩
  rw [same, nothing, List.append_nil, ← ended]
  exact linesOf.words

theorem Grammar.programParts_whole {body : List (Stmt Span)}
    (inside : ∀ token ∈ reading.tokens, token.kind ≠ .endOfInput)
    (run : (programParts limit).run (.ofReading reading) = .ok ((body, stop), next)) :
    next.tokens = [] ∧ ∃ span, reading.ending = .finished span := by
  obtain ⟨nothing, -⟩ := programParts_derives inside run
  refine ⟨nothing, ?_⟩
  cases ending : reading.ending with
  | finished span => exact ⟨span, rfl⟩
  | broken cause =>
    obtain ⟨-, seen⟩ := run_block_of_programParts run
    have broken : next.ending = .broken cause :=
      ((programParts limit).leads _ _ _ run).ending.trans ending
    simp [Cursor.peek, Cursor.atEnd, nothing, broken] at seen

/-- A program that is read from tokens is derived from them, and nothing is left behind it. -/
theorem Program.derives_of_ofReading {program : Program Span}
    (inside : ∀ token ∈ reading.tokens, token.kind ≠ .endOfInput)
    (accepted : Program.ofReading limit reading = .ok program) :
    (∃ span, reading.ending = .finished span) ∧
      Derives limit.depth (.nestedLines .program) (reading.tokens.map Token.lexeme) .endOfInput
        (program.body.map Stmt.shape) := by
  obtain ⟨stop, next, run, -⟩ := Program.ofReading_eq_ok_iff.mp accepted
  exact ⟨(programParts_whole inside run).2, (programParts_derives inside run).2⟩

/-- With any number of levels, a program that is derived within them is read. -/
theorem Grammar.run_block_of_derives (limit : Limit) {levels : Nat}
    (ending : reading.ending = .finished span)
    (derives : Derives levels (.nestedLines .program) (reading.tokens.map Token.lexeme) .endOfInput
      body) :
    ∃ found next, ((nested limit levels).block .program).run (.ofReading reading) =
      .ok (found, next) ∧ found.map Stmt.shape = body := by
  obtain ⟨found, next, run, -, shape⟩ :=
    derives.complete limit [] rfl (.ofReading reading) span ending (by simp [Cursor.words,
      Cursor.ofReading])
  exact ⟨found, next, run, shape⟩

theorem Program.ofReading_of_run_block {body : List (Stmt Span)}
    (ending : reading.ending = .finished span)
    (run : ((nested limit limit.depth).block .program).run (.ofReading reading) = .ok (body, next)) :
    ∃ program, Program.ofReading limit reading = .ok program ∧ program.body = body := by
  have leads := ((nested limit limit.depth).block .program).leads _ _ _ run
  obtain ⟨stop, seen⟩ := Cursor.peek_of_finished (leads.ending.trans ending)
  refine ⟨⟨body, ⟨1, 1, stop.span.endLine, stop.span.endColumn, 0⟩⟩, ?_, rfl⟩
  rw [Program.ofReading, Grammar.program, Parser.run_bind, run]
  simp only [Parser.run_bind, Parser.peek, Parser.look, seen, Parser.run_pure]

/-- A program that is derived from the tokens of a reading within the levels of the limit is
read. -/
theorem Program.ofReading_of_derives (ending : reading.ending = .finished span)
    (derives : Derives limit.depth (.nestedLines .program) (reading.tokens.map Token.lexeme)
      .endOfInput body) :
    ∃ program, Program.ofReading limit reading = .ok program ∧
      program.body.map Stmt.shape = body := by
  obtain ⟨found, next, run, shape⟩ := run_block_of_derives limit ending derives
  obtain ⟨program, accepted, rfl⟩ := Program.ofReading_of_run_block ending run
  exact ⟨program, accepted, shape⟩

/-- If a program is derived within any number of levels, it is read unless the levels of the limit
run out. -/
theorem Program.ofReading_of_derives_of_deep {levels : Nat}
    (ending : reading.ending = .finished span)
    (derives : Derives levels (.nestedLines .program) (reading.tokens.map Token.lexeme) .endOfInput
      body)
    (deepEnough : ∀ failure, Program.ofReading limit reading = .error failure →
      failure.fault.code ≠ "E202") :
    ∃ program, Program.ofReading limit reading = .ok program ∧
      program.body.map Stmt.shape = body := by
  obtain ⟨found, next, run, rfl⟩ := run_block_of_derives limit ending derives
  have sameRun : ((nested limit limit.depth).block .program).run (.ofReading reading) =
      .ok (found, next) := by
    rcases Nat.le_total levels limit.depth with fewer | more
    · rcases ((within_nested limit limit fewer).block .program).run (.ofReading reading) with
        same | ⟨_, fails⟩
      · rw [← same, run]
      · rw [run] at fails
        contradiction
    · rcases ((within_nested limit limit more).block .program).run (.ofReading reading) with
        same | ⟨place, fails⟩
      · rw [same, run]
      · refine absurd limit.code_fault (deepEnough ⟨limit.fault, place⟩ ?_)
        rw [Program.ofReading, Grammar.program, Parser.run_bind, fails]
  obtain ⟨program, accepted, rfl⟩ := Program.ofReading_of_run_block ending sameRun
  exact ⟨program, accepted, rfl⟩

theorem Reading.ofTokens_append_over {body : List Token} (isStop : stop.kind = .endOfInput)
    (inside : ∀ token ∈ body, token.kind ≠ .endOfInput) (more : List Token) :
    Reading.ofTokens (body ++ stop :: more) = ⟨body, .finished stop.span⟩ := by
  have before : (body ++ stop :: more).takeWhile (·.kind != .endOfInput) = body := by
    rw [List.takeWhile_append_of_pos (by simpa using inside)]
    simp [isStop]
  simp [Reading.ofTokens, before]

theorem Reading.ofTokens_append_stop {body : List Token} (isStop : stop.kind = .endOfInput)
    (inside : ∀ token ∈ body, token.kind ≠ .endOfInput) :
    Reading.ofTokens (body ++ [stop]) = ⟨body, .finished stop.span⟩ :=
  Reading.ofTokens_append_over isStop inside []

/-- A row of tokens with one end of the input, at its end, is read as a program exactly if the
grammar derives the program from it, under every limit that is not exceeded. -/
theorem Program.ofTokens_eq_ok_iff_accepts (limit : Limit) (body : List Token) (stop : Token)
    (isStop : stop.kind = .endOfInput) (inside : ∀ token ∈ body, token.kind ≠ .endOfInput)
    (deepEnough : ∀ failure, Program.ofTokens limit (body ++ [stop]) = .error failure →
      failure.fault.code ≠ "E202")
    (shape : Program Unit) :
    (∃ program, Program.ofTokens limit (body ++ [stop]) = .ok program ∧ program.shape = shape) ↔
      Accepts ((body ++ [stop]).map Token.lexeme) shape := by
  have reading := Reading.ofTokens_append_stop isStop inside
  rw [Program.ofTokens, reading] at deepEnough ⊢
  constructor
  · rintro ⟨program, accepted, rfl⟩
    obtain ⟨-, derives⟩ := Program.derives_of_ofReading inside accepted
    refine ⟨limit.depth, body.map Token.lexeme, stop.lexeme, by simp, isStop, ?_⟩
    rw [Program.shape_body, Token.lexeme_kind, isStop]
    exact derives
  · rintro ⟨levels, front, last, words, isLast, derives⟩
    rw [List.map_append, List.map_singleton] at words
    obtain ⟨rfl, same⟩ := List.append_inj' words rfl
    rw [isLast] at derives
    obtain ⟨program, accepted, shapes⟩ :=
      Program.ofReading_of_derives_of_deep rfl derives deepEnough
    exact ⟨program, accepted, Program.shape_eq_iff.mpr shapes⟩

theorem Program.exists_of_any {outcome : Except Failure (Program Span)}
    {check : Program Span → Bool} (passes : outcome.toOption.any check = true) :
    ∃ program, outcome = .ok program ∧ check program = true := by
  cases outcome with
  | error failure => contradiction
  | ok program => exact ⟨program, rfl, passes⟩

/-- Two names are assigned in the branch of an `if` that fills a line. -/
theorem Program.accepts_names_in_branch :
    Accepts
      (((Reading.ofText "if a then b, c = d[0]\n").tokens ++
        [Token.endOfInput .origin]).map Token.lexeme)
      ⟨[.expression (.ifLine (.variable "a" ())
        (.assign (.names ["b", "c"] ()) .set (.index (.variable "d" ()) (.number "0" ()) ()) ())
        ()) ()], ()⟩ := by
  have passes : ((Program.ofTokens .standard
      ((Reading.ofText "if a then b, c = d[0]\n").tokens ++
        [Token.endOfInput .origin])).toOption.any fun program => program.same
      (⟨[.expression (.ifLine (.variable "a" ())
        (.assign (.names ["b", "c"] ()) .set (.index (.variable "d" ()) (.number "0" ()) ()) ())
        ()) ()], ()⟩ : Program Unit)) = true := by decide +kernel
  obtain ⟨program, accepted, same⟩ := Program.exists_of_any passes
  refine (Program.ofTokens_eq_ok_iff_accepts .standard _ _ rfl (by decide +kernel) ?_ _).mp
    ⟨program, accepted, Program.shape_eq_iff.mpr ((Program.same_iff_shape_eq program _).mp same)⟩
  intro failure fails
  rw [accepted] at fails
  cases fails

end Parlance
