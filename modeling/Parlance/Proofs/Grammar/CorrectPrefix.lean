import Parlance.Proofs.Grammar.Acceptance

/-!
Contract: a program is rejected at the first token that cannot be continued.

Owns: the theorem for rows of tokens. The tokens before the one at which the grammar stops begin a
program, and with that token nothing that follows makes a program, under any limit. Only a limit that
is exceeded is reported elsewhere. What completes the tokens may need one level more than the limit
allows.
-/

namespace Parlance

open Grammar Lexeme Parlance.Parser

theorem Program.ofReading_rejects {limit : Limit} {reading : Reading} {span : Span}
    {failure : Failure} (inside : ∀ token ∈ reading.tokens, token.kind ≠ .endOfInput)
    (ending : reading.ending = .finished span)
    (fails : Program.ofReading limit reading = .error failure)
    (shallow : failure.fault.code ≠ "E202") (other : Limit) :
    ∃ cause, Program.ofReading other reading = .error cause := by
  cases outcome : Program.ofReading other reading with
  | error cause => exact ⟨cause, rfl⟩
  | ok program =>
    obtain ⟨-, derives⟩ := Program.derives_of_ofReading inside outcome
    have deepEnough : ∀ cause, Program.ofReading limit reading = .error cause →
        cause.fault.code ≠ "E202" := by
      intro cause same
      rw [fails] at same
      cases same
      exact shallow
    obtain ⟨found, accepted, -⟩ :=
      Program.ofReading_of_derives_of_deep ending derives deepEnough
    rw [fails] at accepted
    cases accepted

theorem Reading.ofTokens_append_word {front : List Token} {token : Token}
    (inside : ∀ other ∈ front ++ [token], other.kind ≠ .endOfInput) (more : List Token) :
    ∃ others span, Reading.ofTokens (front ++ token :: more) =
        ⟨front ++ token :: others, .finished span⟩ ∧
      ∀ other ∈ others, other.kind ≠ .endOfInput := by
  have before : (front ++ token :: more).takeWhile (·.kind != .endOfInput) =
      front ++ token :: more.takeWhile (·.kind != .endOfInput) := by
    have whole : front ++ token :: more = (front ++ [token]) ++ more := by simp
    rw [whole, List.takeWhile_append_of_pos (by simpa using inside)]
    simp
  obtain ⟨span, ending⟩ : ∃ span,
      (Reading.ofTokens (front ++ token :: more)).ending = .finished span := ⟨_, rfl⟩
  refine ⟨more.takeWhile (·.kind != .endOfInput), span, ?_, fun other member => ?_⟩
  · rw [← before, ← ending]
    rfl
  · simpa using List.all_eq_true.mp List.all_takeWhile other member

theorem Failure.Halts.atStop {failure : Failure} {stop : Token} (isStop : stop.kind = .endOfInput)
    (halts : failure.Halts (.endOfInput stop.span)) :
    failure.Halts stop := by
  cases halts with
  | unexpected wanted found isFault isToken isSpan =>
    refine .unexpected wanted found isFault (isToken.trans ?_) isSpan
    simp only [Token.describe, Token.endOfInput, isStop]
  | badTarget op isFault isOp => cases isOp

def Lexeme.token (span : Span) (word : Lexeme) : Token :=
  ⟨word.kind, word.text, word.quote, span⟩

/-- Tokens that begin a program can be followed by tokens that complete it. -/
theorem Program.completes {levels : Nat} {front : List Token}
    (viable : Viable levels (.nestedLines .program) (front.map Token.lexeme)) (span : Span) :
    ∃ more shape, AcceptsWithin levels ((front ++ more).map Token.lexeme) shape ∧
      ∃ body, Reading.ofTokens (front ++ more) = ⟨body, .finished span⟩ ∧
        Derives levels (.nestedLines .program) (body.map Token.lexeme) .endOfInput shape.body := by
  obtain ⟨words, body, closed⟩ := viable
  have derives := closed .endOfInput rfl
  have sameWords : words.map (Token.lexeme ∘ Lexeme.token span) = words := List.map_id words
  have row : (front ++ words.map (Lexeme.token span)).map Token.lexeme =
      front.map Token.lexeme ++ words := by
    rw [List.map_append, List.map_map, sameWords]
  have inside : ∀ token ∈ front ++ words.map (Lexeme.token span), token.kind ≠ .endOfInput := by
    intro token member
    apply derives.inside token.lexeme
    rw [← row]
    exact List.mem_map_of_mem member
  refine ⟨words.map (Lexeme.token span) ++ [.endOfInput span], ⟨body, ()⟩, ?_,
    front ++ words.map (Lexeme.token span), ?_, ?_⟩
  · refine ⟨front.map Token.lexeme ++ words, (Token.endOfInput span).lexeme, ?_, rfl, derives⟩
    rw [← List.append_assoc, List.map_append, row]
    rfl
  · rw [← List.append_assoc]
    exact Reading.ofTokens_append_over rfl inside []
  · rw [row]
    exact derives

/-- What is derived within some levels is read under every limit with that many, and under every
other unless its levels run out. -/
theorem Program.ofReading_of_derives_unless_deep {levels : Nat} {reading : Reading} {span : Span}
    {shape : Program Unit} (ending : reading.ending = .finished span)
    (derives : Derives levels (.nestedLines .program) (reading.tokens.map Token.lexeme) .endOfInput
      shape.body) :
    (∀ limit : Limit, levels ≤ limit.depth →
      ∃ program, Program.ofReading limit reading = .ok program ∧ program.shape = shape) ∧
    ∀ limit cause, Program.ofReading limit reading = .error cause → cause.fault.code = "E202" := by
  constructor
  · intro limit enough
    obtain ⟨program, accepted, shapes⟩ :=
      Program.ofReading_of_derives ending (derives.mono enough)
    exact ⟨program, accepted, Program.shape_eq_iff.mpr shapes⟩
  · intro limit cause rejected
    by_cases isDeep : cause.fault.code = "E202"
    · exact isDeep
    · have deepEnough : ∀ found, Program.ofReading limit reading = .error found →
          found.fault.code ≠ "E202" := by
        intro found same
        rw [rejected] at same
        cases same
        exact isDeep
      obtain ⟨program, accepted, -⟩ :=
        Program.ofReading_of_derives_of_deep ending derives deepEnough
      rw [rejected] at accepted
      cases accepted

/-- A row of tokens with one end of the input, at its end, that is rejected for a cause other than
its depth is rejected at the first token that cannot be continued. With that token no row is a
program, under any limit. Without it, the tokens begin a program: one that is read under every limit
with more levels, and under every other unless its levels run out. -/
theorem Program.ofTokens_fails_at_first_dead_token (limit : Limit) (body : List Token)
    (stop : Token) (failure : Failure) (isStop : stop.kind = .endOfInput)
    (inside : ∀ token ∈ body, token.kind ≠ .endOfInput)
    (fails : Program.ofTokens limit (body ++ [stop]) = .error failure)
    (isCode : failure.fault.code ∈ ["E200", "E201", "E203"]) :
    ∃ front token back, body ++ [stop] = front ++ token :: back ∧ failure.Halts token ∧
      (∀ other more, ∃ cause, Program.ofTokens other (front ++ token :: more) = .error cause) ∧
      ∃ more shape, AcceptsWithin (limit.depth + 1) ((front ++ more).map Token.lexeme) shape ∧
        (∀ larger : Limit, limit.depth < larger.depth →
          ∃ program, Program.ofTokens larger (front ++ more) = .ok program ∧
            program.shape = shape) ∧
        ∀ other cause, Program.ofTokens other (front ++ more) = .error cause →
          cause.fault.code = "E202" := by
  have shallow : failure.fault.code ≠ "E202" := by
    intro isDeep
    rw [isDeep] at isCode
    exact absurd isCode (by decide)
  rw [Program.ofTokens, Reading.ofTokens_append_stop isStop inside] at fails
  obtain ⟨front, rest, token, stops, viable⟩ :=
    (runs_programParts limit _ rfl rfl).stops stop.span failure rfl
      (Program.ofReading_eq_error_iff.mp fails) shallow
  have parts : body = front ++ rest := stops.tokens
  -- What completes the tokens does so under any limit that has the levels for it.
  obtain ⟨more, shape, accepts, tokens, reading, derives⟩ := Program.completes viable stop.span
  have completed : ∃ more shape,
      AcceptsWithin (limit.depth + 1) ((front ++ more).map Token.lexeme) shape ∧
        (∀ larger : Limit, limit.depth < larger.depth →
          ∃ program, Program.ofTokens larger (front ++ more) = .ok program ∧
            program.shape = shape) ∧
        ∀ other cause, Program.ofTokens other (front ++ more) = .error cause →
          cause.fault.code = "E202" := by
    have read := @Program.ofReading_of_derives_unless_deep _ ⟨tokens, .finished stop.span⟩ _ _ rfl
      derives
    rw [← reading] at read
    exact ⟨more, shape, accepts, read.1, read.2⟩
  cases rest with
  | nil =>
    rw [List.append_nil] at parts
    subst parts
    have halts : failure.Halts stop := by
      have atEnd := stops.halts
      rw [← stops.seen] at atEnd
      exact atEnd.atStop isStop
    refine ⟨body, stop, [], rfl, halts, fun other others => ?_, completed⟩
    rw [Program.ofTokens, Reading.ofTokens_append_over isStop inside]
    exact Program.ofReading_rejects inside rfl fails shallow other
  | cons first behind =>
    obtain rfl : first = token := stops.seen
    subst parts
    refine ⟨front, first, behind ++ [stop], by simp, stops.halts, fun other others => ?_,
      completed⟩
    have before : ∀ token ∈ front ++ [first], token.kind ≠ .endOfInput := by
      intro token member
      apply inside token
      rcases List.mem_append.mp member with old | same
      · exact List.mem_append_left _ old
      · rw [List.mem_singleton.mp same]
        simp
    obtain ⟨seen, span, reading, between⟩ := Reading.ofTokens_append_word before others
    have again : Program.ofReading limit ⟨front ++ first :: seen, .finished span⟩ =
        .error failure :=
      Program.ofReading_eq_error_iff.mpr (stops.elsewhere behind rfl seen (.finished span))
    rw [Program.ofTokens, reading]
    refine Program.ofReading_rejects ?_ rfl again shallow other
    intro token member
    rcases List.mem_append.mp member with old | new
    · exact before token (List.mem_append_left _ old)
    · rcases List.mem_cons.mp new with rfl | later
      · exact before token (by simp)
      · exact between token later

/-- A name behind the parameters of a method cannot be continued, while the parameters can. -/
theorem Program.fails_at_name_behind_parameters :
    ∃ failure, Program.ofTokens .standard
        ((Reading.ofText "def f(x) y\n").tokens ++ [Token.endOfInput .origin]) = .error failure ∧
      failure.fault.code = "E201" ∧
      ∃ front token back,
        (Reading.ofText "def f(x) y\n").tokens ++ [Token.endOfInput .origin] =
            front ++ token :: back ∧
          failure.Halts token ∧
          (∀ other more, ∃ cause, Program.ofTokens other (front ++ token :: more) = .error cause) ∧
          ∃ more program, Program.ofTokens ⟨33, "33", 33⟩ (front ++ more) = .ok program := by
  have code : (match Program.ofTokens .standard
      ((Reading.ofText "def f(x) y\n").tokens ++ [Token.endOfInput .origin]) with
    | .error failure => some failure.fault.code
    | .ok _ => none) = some "E201" := by decide +kernel
  cases outcome : Program.ofTokens .standard
      ((Reading.ofText "def f(x) y\n").tokens ++ [Token.endOfInput .origin]) with
  | ok program =>
    rw [outcome] at code
    cases code
  | error failure =>
    rw [outcome] at code
    have isCode : failure.fault.code = "E201" := Option.some.inj code
    obtain ⟨front, token, back, parts, halts, dead, more, shape, -, larger, -⟩ :=
      Program.ofTokens_fails_at_first_dead_token .standard _ (.endOfInput .origin) failure rfl
        (by decide +kernel) outcome (by rw [isCode]; decide)
    obtain ⟨program, accepted, -⟩ := larger ⟨33, "33", 33⟩ (by decide)
    exact ⟨failure, rfl, isCode, front, token, back, parts, halts, dead, more, program, accepted⟩

end Parlance
