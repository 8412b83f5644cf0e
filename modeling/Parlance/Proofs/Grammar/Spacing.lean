import Parlance.Proofs.Grammar.Concatenation
import Parlance.Proofs.Token.Respacing

/-!
Contract: the gaps of a text do not matter.

A program is read from the words of a text; where they stand decides only about the spans. Owns: what
it means that two texts have the same outcome (`Program.SameOutcome`), that readings with the same
words do, and the theorem for texts that differ only between their words. Does not own: which changes
of a text keep its words.
-/

namespace Parlance

open Grammar Relocatable

/-- Two outcomes that differ at most in their places: programs of the same shape, or failures that
say the same. -/
inductive Program.SameOutcome :
    Except Failure (Program Span) → Except Failure (Program Span) → Prop where
  | ok {program other : Program Span} (same : program.shape = other.shape) :
      Program.SameOutcome (.ok program) (.ok other)
  | error {failure other : Failure} (sameStage : failure.fault.stage = other.fault.stage)
      (sameCode : failure.fault.code = other.fault.code)
      (sameMessage : failure.fault.message = other.fault.message)
      (sameNotes : failure.fault.notes = other.fault.notes) :
      Program.SameOutcome (.error failure) (.error other)

def Relocation.forget : Relocation :=
  ⟨fun _ => .origin, fun _ _ => rfl⟩

/-- Tokens of which the places are forgotten are told by their words. -/
theorem relocate_forget_eq {tokens others : List Token}
    (words : tokens.map Token.lexeme = others.map Token.lexeme) :
    relocate .forget tokens = relocate .forget others := by
  induction tokens generalizing others with
  | nil =>
    rw [List.map_nil, eq_comm, List.map_eq_nil_iff] at words
    rw [words]
  | cons token tokens ih =>
    cases others with
    | nil => cases words
    | cons other others =>
      obtain ⟨sameWord, sameWords⟩ := List.cons.inj words
      obtain ⟨sameKind, sameText, sameQuote⟩ := Lexeme.mk.inj sameWord
      have same : relocate Relocation.forget token = relocate .forget other := by
        show Token.mk token.kind token.text token.quote .origin =
          Token.mk other.kind other.text other.quote .origin
        rw [sameKind, sameText, sameQuote]
      rw [relocate_cons, relocate_cons, same, ih sameWords]

namespace Program

variable {limit : Limit} {reading other : Reading} {span place : Span}

/-- A failure is found in the reading with other places as well, at its own new place. -/
theorem ofReading_relocate {failure : Failure} (change : Relocation)
    (fails : ofReading limit reading = .error failure) :
    ofReading limit ⟨relocate change reading.tokens, reading.ending.relocate change⟩ =
      .error (relocate change failure) := by
  rw [ofReading_eq_error_iff] at fails ⊢
  obtain ⟨reach, -, follows⟩ :=
    (retraces_programParts change limit _ false _ rfl).error failure fails
  have ahead := Ahead.all change (reach + 1) reading.tokens reading.ending
  exact follows (reach + 1) (.ofReading ⟨_, _⟩) ⟨ahead, fun settled => by cases settled⟩
    (Nat.lt_succ_self reach)

theorem ofReading_of_words {program : Program Span}
    (words : reading.tokens.map Token.lexeme = other.tokens.map Token.lexeme)
    (inside : ∀ token ∈ reading.tokens, token.kind ≠ .endOfInput)
    (finished : other.ending = .finished place) (accepted : ofReading limit reading = .ok program) :
    ∃ again, ofReading limit other = .ok again ∧ program.shape = again.shape := by
  obtain ⟨-, derives⟩ := derives_of_ofReading inside accepted
  rw [words] at derives
  obtain ⟨again, acceptedAgain, sameBody⟩ := ofReading_of_derives finished derives
  refine ⟨again, acceptedAgain, shape_eq_iff.mpr ?_⟩
  rw [shape_body, sameBody]

theorem ofReading_sameOutcome
    (words : reading.tokens.map Token.lexeme = other.tokens.map Token.lexeme)
    (inside : ∀ token ∈ reading.tokens, token.kind ≠ .endOfInput)
    (insideOther : ∀ token ∈ other.tokens, token.kind ≠ .endOfInput)
    (finished : reading.ending = .finished span) (finishedOther : other.ending = .finished place) :
    SameOutcome (ofReading limit reading) (ofReading limit other) := by
  cases outcome : ofReading limit reading with
  | ok program =>
    obtain ⟨again, accepted, same⟩ := ofReading_of_words words inside finishedOther outcome
    rw [accepted]
    exact .ok same
  | error failure =>
    cases outcomeOther : ofReading limit other with
    | ok program =>
      obtain ⟨again, accepted, -⟩ :=
        ofReading_of_words words.symm insideOther finished outcomeOther
      rw [accepted] at outcome
      cases outcome
    | error failureOther =>
      -- Without places both readings are one, and so are their failures.
      have forgotten := ofReading_relocate .forget outcome
      have forgottenOther := ofReading_relocate .forget outcomeOther
      rw [relocate_forget_eq words, finished] at forgotten
      rw [finishedOther] at forgottenOther
      have same : failure.fault.relocate .forget = failureOther.fault.relocate .forget :=
        congrArg Failure.fault (Except.error.inj (forgotten.symm.trans forgottenOther))
      obtain ⟨stage, code, message, notes⟩ := failure.fault.relocate_says .forget
      obtain ⟨stage', code', message', notes'⟩ := failureOther.fault.relocate_says .forget
      exact .error (by rw [← stage, same, stage']) (by rw [← code, same, code'])
        (by rw [← message, same, message']) (by rw [← notes, same, notes'])

end Program

theorem Reading.words_of_complete {reading : Reading} {tokens : List Token}
    (complete : reading.complete = .ok tokens) :
    (∃ span, reading.ending = .finished span) ∧
      tokens.map Token.lexeme = reading.tokens.map Token.lexeme ++ [⟨.endOfInput, "", ""⟩] := by
  cases ending : reading.ending with
  | broken failure => simp [Reading.complete, ending] at complete
  | finished span =>
    simp only [Reading.complete, Reading.allTokens, ending, Except.ok.injEq] at complete
    refine ⟨⟨span, rfl⟩, ?_⟩
    rw [← complete, List.map_append]
    rfl

theorem Reading.complete_of_finished {reading : Reading} {span : Span}
    (finished : reading.ending = .finished span) :
    reading.complete = .ok (reading.tokens ++ [.endOfInput span]) := by
  simp [Reading.complete, Reading.allTokens, finished]

/-- A text that is read to its end is made of its words and of gaps between them. If only the gaps
are changed, the text is read to its end again, as the same words, and under every limit it has the
same outcome: a program of the same shape, or a failure that says the same. -/
theorem Program.ofText_respaced (source : String) (tokens : List Token)
    (complete : (Reading.ofText source).complete = .ok tokens) :
    Respaced ((Reading.ofText source).tokens.map Token.lexeme) source.toList source.toList ∧
      ∀ other : String,
        Respaced ((Reading.ofText source).tokens.map Token.lexeme) source.toList other.toList →
          (∃ again, (Reading.ofText other).complete = .ok again ∧
            again.map Token.lexeme = tokens.map Token.lexeme) ∧
          ∀ limit, SameOutcome (Program.ofText limit source) (Program.ofText limit other) := by
  obtain ⟨⟨span, finished⟩, words⟩ := Reading.words_of_complete complete
  have inside (text : String) : ∀ token ∈ (Reading.ofText text).tokens, token.kind ≠ .endOfInput :=
    fun token member => ((Reading.readOn_begun none .start text.toList).tokens token member).1
  refine ⟨Reading.readOn_respaced _ _ _ ⟨span, finished⟩, fun other respaced => ?_⟩
  obtain ⟨sameWords, place, finishedOther⟩ := respaced.gives ⟨rfl, span, finished⟩
  refine ⟨⟨_, Reading.complete_of_finished finishedOther, ?_⟩, fun limit => ?_⟩
  · rw [words, ← sameWords, List.map_append]
    rfl
  · exact Program.ofReading_sameOutcome sameWords.symm (inside source) (inside other) finished
      finishedOther

/-- A minus sign behind a name is no sign of a number, with or without spaces; a comment comes. -/
theorem Program.respaced_difference :
    (∃ tokens, (Reading.ofText "a-1\n").complete = .ok tokens) ∧
      Respaced ((Reading.ofText "a-1\n").tokens.map Token.lexeme) "a-1\n".toList
        " a  -1 # one\n".toList ∧
      SameOutcome (Program.ofText .standard "a-1\n")
        (Program.ofText .standard " a  -1 # one\n") := by
  have complete : (Reading.ofText "a-1\n").complete = .ok (Reading.ofText "a-1\n").allTokens := by
    decide +kernel
  have words : (Reading.ofText "a-1\n").tokens.map Token.lexeme =
      [⟨Kind.ofWord (String.ofList ['a']), String.ofList ['a'], ""⟩,
        ⟨.symbol .minus, Symbol.minus.spelling, ""⟩, ⟨.number, String.ofList ([] ++ ['1']), ""⟩,
        ⟨.newline, "\n", ""⟩] := by decide +kernel
  have letter : Lexeme.Spelled ⟨Kind.ofWord (String.ofList ['a']), String.ofList ['a'], ""⟩ ['a'] :=
    .word (by decide) (by simp)
  have one : Numeral ('1' :: ([] ++ [])) := .mk (by decide) (by simp) (by simp) .none
  have blank (count : Nat) : Blank (List.replicate count ' ') :=
    fun c member => List.eq_of_mem_replicate member
  have comment : Trailing ([' '] ++ '#' :: " one".toList) := .comment (blank 1) (by decide)
  have lineEnd : Respaced [⟨.newline, "\n", ""⟩] ([] ++ (['\n'] ++ []))
      (([' '] ++ '#' :: " one".toList) ++ (['\n'] ++ [])) :=
    .lineBreak (.blank (blank 0)) comment (.inl rfl) (.ended (.blank (blank 0)) (.blank (blank 0)))
  have respaced : Respaced ((Reading.ofText "a-1\n").tokens.map Token.lexeme) "a-1\n".toList
      " a  -1 # one\n".toList := by
    rw [words]
    have number := lineEnd.word (blank 0) (blank 0) (by simp) (.number (.inl rfl) one)
    have minus := number.word (blank 0) (blank 2) (by simp) (.symbol .minus)
    exact minus.word (blank 0) (blank 1) (by simp) letter
  exact ⟨⟨_, complete⟩, respaced,
    ((Program.ofText_respaced _ _ complete).2 _ respaced).2 .standard⟩

end Parlance
