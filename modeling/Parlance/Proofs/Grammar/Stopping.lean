import Parlance.Proofs.Grammar.Acceptance

/-!
Contract: rows of tokens are read up to the first end of the input.

In a row of tokens the end of the input may stand anywhere, and more than once. Such a token is one
like any other for the steps that parsers are made of: it can be looked past, selected by a loop and
taken. Owns: that a row which is over and one which goes on behind the end of the input give the same
program, and the theorem about the outcomes of all rows. Does not own: that the rules of the grammar
look no further than the end of the input; this is part of how they are retraced.
-/

namespace Parlance

/-- The place at which a row of tokens without an end of the input is over. -/
def Reading.lastSpan (tokens : List Token) : Span :=
  (tokens.getLast?.map (·.span)).getD .origin

theorem Reading.ofTokens_of_unended {tokens : List Token}
    (inside : ∀ token ∈ tokens, token.kind ≠ .endOfInput) :
    Reading.ofTokens tokens = ⟨tokens, .finished (lastSpan tokens)⟩ := by
  have all : (tokens ++ ([] : List Token)).takeWhile (·.kind != .endOfInput) = tokens ++ [] :=
    List.takeWhile_append_of_pos (by simpa using inside)
  rw [List.append_nil] at all
  simp [Reading.ofTokens, all, lastSpan]

namespace Program

/-- A program is read up to the end of the input, whatever stands behind it. -/
theorem ofReading_append_over (limit : Limit) (tokens more : List Token) (span : Span)
    (ending : Ending) :
    ofReading limit ⟨tokens ++ .endOfInput span :: more, ending⟩ =
      ofReading limit ⟨tokens, .finished span⟩ := by
  have retraces := Grammar.retraces_programParts .stay limit _ true
    (.ofReading ⟨tokens, .finished span⟩) rfl
  have same := retraces.beyond more ending
  rw [ofReading_eq_map, ofReading_eq_map]
  exact congrArg _ same

theorem stage_of_failure {limit : Limit} {tokens : List Token} {span : Span} {failure : Failure}
    (fails : ofReading limit ⟨tokens, .finished span⟩ = .error failure) :
    failure.fault.stage = .grammatical := by
  rw [ofReading_eq_error_iff] at fails
  obtain ⟨reach, blames, -⟩ :=
    (Grammar.retraces_programParts .stay limit _ false _ rfl).error failure fails
  rcases blames with isBroken | ⟨isGrammatical, -⟩
  · cases isBroken
  · exact isGrammatical

/-- **Every row of tokens is read to a clean end.** Under every limit the outcome is a program or a
fault of the grammar. It is the outcome of the tokens up to their first end of the input, or else of
all tokens with an end of the input at the place of the last one behind them; and also where the row
goes on behind that end, with any tokens and any ending, nothing of this is read. -/
theorem ofTokens_ends_cleanly (limit : Limit) (tokens : List Token) :
    ((∃ program, ofTokens limit tokens = .ok program) ∨
      ∃ failure, ofTokens limit tokens = .error failure ∧ failure.fault.stage = .grammatical) ∧
    (∀ front stop more, tokens = front ++ stop :: more → stop.kind = .endOfInput →
      (∀ token ∈ front, token.kind ≠ .endOfInput) →
        ofTokens limit tokens = ofTokens limit (front ++ [stop]) ∧
          ∀ others ending, ofTokens limit tokens =
            ofReading limit ⟨front ++ .endOfInput stop.span :: others, ending⟩) ∧
    ((∀ token ∈ tokens, token.kind ≠ .endOfInput) →
      ofTokens limit tokens = ofTokens limit (tokens ++ [.endOfInput (Reading.lastSpan tokens)]) ∧
        ∀ others ending, ofTokens limit tokens =
          ofReading limit ⟨tokens ++ .endOfInput (Reading.lastSpan tokens) :: others, ending⟩) := by
  refine ⟨?_, ?_, ?_⟩
  · cases outcome : ofTokens limit tokens with
    | ok program => exact .inl ⟨program, rfl⟩
    | error failure => exact .inr ⟨failure, rfl, stage_of_failure outcome⟩
  · rintro front stop more rfl isStop inside
    have cut : ofTokens limit (front ++ stop :: more) =
        ofReading limit ⟨front, .finished stop.span⟩ := by
      rw [ofTokens, Reading.ofTokens_append_over isStop inside]
    refine ⟨?_, fun others ending => ?_⟩
    · rw [cut, ofTokens, Reading.ofTokens_append_stop isStop inside]
    · rw [cut, ofReading_append_over]
  · intro inside
    have whole : ofTokens limit tokens =
        ofReading limit ⟨tokens, .finished (Reading.lastSpan tokens)⟩ := by
      rw [ofTokens, Reading.ofTokens_of_unended inside]
    refine ⟨?_, fun others ending => ?_⟩
    · rw [whole, ofTokens, Reading.ofTokens_append_stop rfl inside]
      rfl
    · rw [whole, ofReading_append_over]

/-- A class whose `end` stands behind the end of the input is not closed, and the same class without
any end of the input is read as one that is over behind its header. -/
theorem ofTokens_ends_before_late_end :
    let header : List Token := [⟨.keyword .kwClass, "class", "", .origin⟩,
      ⟨.name, "a", "", .origin⟩, ⟨.newline, "", "", .origin⟩]
    let late : Token := ⟨.keyword .kwEnd, "end", "", .origin⟩
    ofTokens .standard (header ++ ⟨.endOfInput, "?", "", .origin⟩ :: [late]) =
        ofTokens .standard (header ++ [⟨.endOfInput, "?", "", .origin⟩]) ∧
      ofTokens .standard header = ofTokens .standard (header ++ [.endOfInput .origin]) :=
  ⟨((ofTokens_ends_cleanly .standard _).2.1 _ _ _ rfl rfl (by decide)).1,
    ((ofTokens_ends_cleanly .standard _).2.2 (by decide)).1⟩

end Program

end Parlance
