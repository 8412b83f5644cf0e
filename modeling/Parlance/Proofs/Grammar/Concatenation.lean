import Parlance.Proofs.Grammar.Acceptance
import Parlance.Proofs.Token.Seam

/-!
Contract: a program behind a program is one program.

The lines of a program end where the input ends. If more tokens follow instead, reading goes on with
them at the start of a line, and it does so as if nothing stood before, but for the lines that are
there already. Owns: this law for rows of tokens, and the theorem for texts.
-/

namespace Parlance

namespace Grammar

open Parlance.Parser Relocatable

variable {inner : Nested} {block : Block}

/-! ## Lines that are there already -/

theorem run_foldWhile_newline {here : Cursor} {token : Token} {rest : List Token}
    (before : List (Stmt Span)) (tokens : here.tokens = token :: rest)
    (isBreak : token.kind = .newline) :
    (foldWhile (ofKind .newline)
      (fun body _ => return body ++ (← blockLine inner block)) before).run here =
      (linesFrom inner block before).run (here.behind token rest) := by
  rw [run_foldWhile, tokens]
  dsimp only
  rw [ofKind_eq_some isBreak]
  unfold linesFrom
  dsimp only
  simp only [run_bind]
  cases (blockLine inner block).run (here.behind token rest) with
  | error failure => rfl
  | ok reply => rfl

/-- The lines found by a loop stand behind those that were there before. -/
theorem run_foldWhile_append (before more : List (Stmt Span)) (here : Cursor) :
    (foldWhile (ofKind .newline)
      (fun body _ => return body ++ (← blockLine inner block)) (before ++ more)).run here =
      match (foldWhile (ofKind .newline)
        (fun body _ => return body ++ (← blockLine inner block)) more).run here with
      | .error failure => .error failure
      | .ok (body, next) => .ok (before ++ body, next) := by
  induction here using Cursor.taken_induction generalizing more with
  | step here ih =>
    rw [run_foldWhile, run_foldWhile]
    cases tokens : here.tokens with
    | nil =>
      dsimp only
      cases here.atEnd with
      | error failure => rfl
      | ok token => rfl
    | cons token rest =>
      dsimp only
      cases selected : ofKind .newline token with
      | none => rfl
      | some choice =>
        dsimp only
        rw [run_bind, run_bind]
        cases outcome : (blockLine inner block).run (here.behind token rest) with
        | error failure => rfl
        | ok reply =>
          obtain ⟨line, between⟩ := reply
          have leads := (blockLine inner block).leads _ _ _ outcome
          dsimp only
          rw [run_pure, run_pure]
          dsimp only
          rw [List.append_assoc]
          exact ih token rest between tokens leads.tokens (more ++ line)

theorem run_linesFrom (before : List (Stmt Span)) (here : Cursor) :
    (linesFrom inner block before).run here =
      match (linesFrom inner block []).run here with
      | .error failure => .error failure
      | .ok (body, next) => .ok (before ++ body, next) := by
  unfold linesFrom
  rw [run_bind, run_bind]
  cases (blockLine inner block).run here with
  | error failure => rfl
  | ok reply =>
    obtain ⟨line, between⟩ := reply
    exact run_foldWhile_append before line between

/-! ## More lines behind a program -/

variable {limit : Limit} {levels : Nat}

/-- What a line of a program leaves: nothing, if it found nothing, and otherwise a line break. -/
theorem blockLine_leaves {here between : Cursor} {line : List (Stmt Span)}
    (run : (blockLine (nested limit levels) .program).run here = .ok (line, between)) :
    (here.tokens = [] ∧ line = [] ∧ between.tokens = []) ∨
      ∃ token rest, between.tokens = token :: rest ∧
        (token.kind = .newline ∨ token.kind = .endOfInput) := by
  have lawful := lawful_nested limit levels (Nat.le_refl _)
  obtain ⟨taken, leaves, ⟨one, -⟩⟩ :=
    (runs_blockLine lawful .program here rfl rfl).leaves line between run
  cases tokens : between.tokens with
  | cons token rest =>
    right
    refine ⟨token, rest, rfl, ?_⟩
    have isKind : between.kind = token.kind := Cursor.kind_of_tokens tokens
    rcases one.stops with isBreak | isOver
    · exact .inl (isKind.symm.trans isBreak)
    · exact .inr (isKind.symm.trans (beq_iff_eq.mp isOver))
  | nil =>
    left
    have isKind : between.kind = .endOfInput := by
      rw [Cursor.kind, Cursor.words, tokens]
      rfl
    rw [isKind] at one
    generalize shapes : line.map Stmt.shape = found at one
    generalize row : taken.map Token.lexeme = words at one
    cases one with
    | empty stops =>
      have nothing : here.tokens = [] := by
        rw [leaves.tokens, tokens, List.map_eq_nil_iff.mp row]
        rfl
      exact ⟨nothing, List.map_eq_nil_iff.mp shapes, rfl⟩

/-- If more tokens follow those of a program, reading goes on with them behind the lines of the
program. -/
theorem run_linesFrom_follow {before body : List (Stmt Span)} {here next : Cursor}
    (run : (linesFrom (nested limit levels) .program before).run here = .ok (body, next))
    (whole : next.tokens = []) (others : List Token) (ending : Ending) :
    ∃ last, (linesFrom (nested limit levels) .program before).run
        ⟨here.tokens ++ others, ending, here.last⟩ =
      (linesFrom (nested limit levels) .program body).run ⟨others, ending, last⟩ := by
  -- The induction is on the tokens of the program: a line and its break are taken off the front.
  induction length : here.tokens.length using Nat.strongRecOn generalizing before here with
  | ind size ih =>
    have runLine := run
    rw [linesFrom, run_bind] at runLine
    cases outcome : (blockLine (nested limit levels) .program).run here with
    | error failure => simp [outcome] at runLine
    | ok reply =>
      obtain ⟨line, between⟩ := reply
      simp only [outcome] at runLine
      rcases blockLine_leaves outcome with
        ⟨nothing, noLine, nothingLeft⟩ | ⟨token, rest, tokens, isStop⟩
      · rw [run_foldWhile, nothingLeft] at runLine
        cases ends : between.atEnd with
        | error failure => simp [ends] at runLine
        | ok token =>
          simp only [ends, Except.ok.injEq, Prod.mk.injEq] at runLine
          obtain ⟨isBody, -⟩ := runLine
          rw [noLine, List.append_nil] at isBody
          rw [nothing, ← isBody]
          exact ⟨here.last, rfl⟩
      · rcases isStop with isBreak | isOver
        · rw [run_foldWhile_newline _ tokens isBreak] at runLine
          obtain ⟨taken, leaves, -⟩ := (runs_blockLine (lawful_nested limit levels (Nat.le_refl _))
            .program here rfl rfl).leaves line between outcome
          have shorter : rest.length < size := by
            rw [← length, leaves.tokens, tokens, List.length_append, List.length_cons]
            omega
          obtain ⟨last, goesOn⟩ := ih _ shorter runLine rfl
          refine ⟨last, ?_⟩
          rw [← goesOn, leaves.tokens, tokens, List.append_assoc, List.cons_append]
          rw [linesFrom, run_bind, leaves.elsewhere token rest tokens (rest ++ others) ending]
          exact run_foldWhile_newline _ rfl isBreak
        · rw [run_foldWhile, tokens] at runLine
          have unselected : ofKind .newline token = none := by simp [ofKind, isOver]
          simp only [unselected, Except.ok.injEq, Prod.mk.injEq] at runLine
          rw [← runLine.2, tokens] at whole
          cases whole

theorem block_of_run {here next : Cursor} {body : List (Stmt Span)}
    (run : ((nested limit limit.depth).block .program).run here = .ok (body, next)) :
    ∃ levels, (nested limit limit.depth).block .program =
      linesFrom (nested limit levels) .program [] := by
  cases depth : limit.depth with
  | succ levels => exact ⟨levels, rfl⟩
  | zero =>
    rw [depth] at run
    have fails : (tooDeep limit : Parser (List (Stmt Span))).run here = .ok (body, next) := run
    rw [tooDeep, run_bind] at fails
    split at fails <;> cases fails

/-- The lines of a program and then of what follows it, which stands at another place there. -/
theorem run_programParts_follow {first second : Reading} {body : List (Stmt Span)} {stop : Token}
    {next : Cursor} (change : Relocation)
    (run : (programParts limit).run (.ofReading first) = .ok ((body, stop), next))
    (whole : next.tokens = []) :
    (∀ more otherStop last, (programParts limit).run (.ofReading second) =
        .ok ((more, otherStop), last) →
      ∃ behind, (programParts limit).run (.ofReading (first.follow (second.relocate change))) =
        .ok ((body ++ relocate change more, relocate change otherStop), behind)) ∧
    ∀ failure, (programParts limit).run (.ofReading second) = .error failure →
      (programParts limit).run (.ofReading (first.follow (second.relocate change))) =
        .error (relocate change failure) := by
  obtain ⟨blockRun, -⟩ := run_block_of_programParts run
  obtain ⟨levels, isLines⟩ := block_of_run blockRun
  have parts : ∀ here : Cursor, (programParts limit).run here =
      (linesFrom (nested limit levels) .program [] >>= fun body =>
        peek >>= fun stop => pure (body, stop)).run here := by
    intro here
    unfold programParts
    rw [isLines]
  rw [isLines] at blockRun
  obtain ⟨last, goesOn⟩ := run_linesFrom_follow blockRun whole
    (relocate change second.tokens) (second.ending.relocate change)
  have combined : (programParts limit).run (.ofReading (first.follow (second.relocate change))) =
      match (programParts limit).run
        ⟨relocate change second.tokens, second.ending.relocate change, last⟩ with
      | .error failure => .error failure
      | .ok ((more, stop), behind) => .ok ((body ++ more, stop), behind) := by
    rw [parts, parts, run_bind, run_bind]
    have start : (linesFrom (nested limit levels) .program []).run
        (.ofReading (first.follow (second.relocate change))) = _ := goesOn
    rw [start, run_linesFrom]
    cases (linesFrom (nested limit levels) .program []).run
        ⟨relocate change second.tokens, second.ending.relocate change, last⟩ with
    | error failure => rfl
    | ok reply =>
      obtain ⟨more, behind⟩ := reply
      dsimp only
      rw [run_bind, run_bind]
      cases (peek : Parser Token).run behind with
      | error failure => rfl
      | ok stop => rfl
  have shows : ∀ count, (Cursor.ofReading second).Shows change false count
      ⟨relocate change second.tokens, second.ending.relocate change, last⟩ :=
    fun count => ⟨Ahead.all change count _ _, fun settled => by cases settled⟩
  have retraces := retraces_programParts change limit _ false (Cursor.ofReading second) rfl
  constructor
  · intro more otherStop final secondRun
    obtain ⟨passed, -, -, follows⟩ := retraces.ok _ _ secondRun
    obtain ⟨behind, again, -, -⟩ := follows _ _ (shows _) (Nat.lt_succ_self passed)
    refine ⟨behind, ?_⟩
    rw [combined, again]
    rfl
  · intro failure fails
    obtain ⟨reach, -, follows⟩ := retraces.error _ fails
    rw [combined, follows _ _ (shows _) (Nat.lt_succ_self reach)]

end Grammar

open Grammar Relocatable

/-- A fault says the same wherever the token that it names stands. -/
theorem Fault.relocate_says (change : Relocation) (fault : Fault) :
    (fault.relocate change).stage = fault.stage ∧ (fault.relocate change).code = fault.code ∧
      (fault.relocate change).message = fault.message ∧
        (fault.relocate change).notes = fault.notes := by
  cases fault <;> exact ⟨rfl, rfl, rfl, rfl⟩

theorem endsLine_of_complete {front : String}
    (complete : front = "" ∨ ∃ lines, front = lines ++ "\n") :
    EndsLine front.toList := by
  intro c isLast
  rcases complete with rfl | ⟨lines, rfl⟩
  · cases isLast
  · have ends : (lines.toList ++ ['\n']).getLast? = some '\n' := List.getLast?_concat
    rw [String.toList_append] at isLast
    exact Option.some.inj (isLast.symm.trans ends)

/-- Complete lines that hold a program can stand before any text. If the text holds a program too,
the statements of both stand one behind the other; if not, it fails as it does alone. What comes
from the text stands as many lines further down as there are before it. -/
theorem Program.ofText_concatenates (limit : Limit) (front back : String) (first : Program Span)
    (complete : front = "" ∨ ∃ lines, front = lines ++ "\n")
    (accepted : Program.ofText limit front = .ok first) :
    (∀ second, Program.ofText limit back = .ok second →
      ∃ whole, Program.ofText limit (front ++ back) = .ok whole ∧
        whole.body = first.body ++
          second.body.map (Stmt.map (Span.down (front.toList.count '\n') front.length))) ∧
    ∀ failure, Program.ofText limit back = .error failure →
      ∃ moved, Program.ofText limit (front ++ back) = .error moved ∧
        moved.fault.stage = failure.fault.stage ∧ moved.fault.code = failure.fault.code ∧
        moved.fault.message = failure.fault.message ∧ moved.fault.notes = failure.fault.notes ∧
        moved.span = failure.span.down (front.toList.count '\n') front.length := by
  have begun : (Reading.ofText front).Begun .start front.toList := Reading.readOn_begun _ _ _
  have inside : ∀ token ∈ (Reading.ofText front).tokens, token.kind ≠ .endOfInput :=
    fun token member => (begun.tokens token member).1
  obtain ⟨stop, next, run, -⟩ := Program.ofReading_eq_ok_iff.mp accepted
  obtain ⟨whole, span, finished⟩ := programParts_whole inside run
  have seam := Reading.ofText_append (endsLine_of_complete complete) finished back
  rw [String.length_toList] at seam
  have together := @run_programParts_follow limit _ (Reading.ofText back) _ _ _
    (.down (front.toList.count '\n') front.length) run whole
  rw [← seam] at together
  obtain ⟨succeeds, fails⟩ := together
  constructor
  · intro second secondAccepted
    obtain ⟨otherStop, last, secondRun, -⟩ := Program.ofReading_eq_ok_iff.mp secondAccepted
    obtain ⟨behind, both⟩ := succeeds _ _ _ secondRun
    exact ⟨⟨_, _⟩, Program.ofReading_eq_ok_iff.mpr ⟨_, behind, both, rfl⟩, rfl⟩
  · intro failure secondFails
    have moved := fails failure (Program.ofReading_eq_error_iff.mp secondFails)
    obtain ⟨sameStage, sameCode, sameMessage, sameNotes⟩ :=
      failure.fault.relocate_says (.down (front.toList.count '\n') front.length)
    exact ⟨_, Program.ofReading_eq_error_iff.mpr moved, sameStage, sameCode, sameMessage,
      sameNotes, rfl⟩

/-- A call over two lines behind an assignment, and a stray name behind the same assignment. -/
theorem Program.concatenates_call_and_stray_name :
    (∃ first second whole, Program.ofText .standard "x = 1\n" = .ok first ∧
      Program.ofText .standard "y(\n2)" = .ok second ∧
      Program.ofText .standard ("x = 1\n" ++ "y(\n2)") = .ok whole ∧
      whole.body = first.body ++ second.body.map (Stmt.map (Span.down 1 6))) ∧
    ∃ moved, Program.ofText .standard ("x = 1\n" ++ "y z") = .error moved ∧
      moved.fault.code = "E201" ∧ moved.span = ⟨2, 3, 2, 3, 8⟩ := by
  have firstPasses : (Program.ofText .standard "x = 1\n").toOption.any
      (fun program => program.body.length == 1) = true := by decide +kernel
  have secondPasses : (Program.ofText .standard "y(\n2)").toOption.any
      (fun program => program.body.length == 1) = true := by decide +kernel
  have secondFails : (match Program.ofText .standard "y z" with
      | .ok _ => ("", Span.origin)
      | .error failure => (failure.fault.code, failure.span)) = ("E201", ⟨1, 3, 1, 3, 2⟩) := by
    decide +kernel
  obtain ⟨first, accepted, -⟩ := Program.exists_of_any firstPasses
  obtain ⟨second, secondAccepted, -⟩ := Program.exists_of_any secondPasses
  have complete : "x = 1\n" = "" ∨ ∃ lines, "x = 1\n" = lines ++ "\n" := .inr ⟨"x = 1", by decide⟩
  constructor
  · obtain ⟨whole, together, body⟩ := (Program.ofText_concatenates .standard "x = 1\n" "y(\n2)" first
      complete accepted).1 second secondAccepted
    exact ⟨first, second, whole, accepted, secondAccepted, together, body⟩
  · cases outcome : Program.ofText .standard "y z" with
    | ok program =>
      rw [outcome] at secondFails
      have noCode : "" = "E201" := congrArg Prod.fst secondFails
      exact absurd noCode (by decide)
    | error failure =>
      rw [outcome] at secondFails
      obtain ⟨isCode, isSpan⟩ := Prod.mk.inj secondFails
      obtain ⟨moved, together, -, sameCode, -, -, sameSpan⟩ :=
        (Program.ofText_concatenates .standard "x = 1\n" "y z" first complete accepted).2 failure
          outcome
      refine ⟨moved, together, sameCode.trans isCode, ?_⟩
      rw [sameSpan, isSpan]
      decide

end Parlance
