import Parlance.Diagnostic
import Parlance.Proofs.Grammar.Acceptance

/-!
Contract: which fault of a text is reported, and where.

A text is read token by token while its tokens are fitted together. Owns: that this gives what the
finished row of tokens gives if the text has no fault of its own, that otherwise the first of the two
kinds of fault is reported, and that a report names a place of the text.

The places are told without following them through the grammar. A change that moves only some spans
moves the failure with the tokens; so if every token stays, the failure stays.
-/

namespace Parlance

open Grammar Relocatable

def Span.Before (span other : Span) : Prop :=
  span.offset < other.offset

/-! ## Changes that some spans withstand -/

open Classical in
/-- The change that leaves the spans of one class where they are and no other. The class is told by
the start of a span. -/
noncomputable def Relocation.keeping (isKept : Span → Prop)
    (byStart : ∀ first last : Span, isKept (first.through last) ↔ isKept first) : Relocation where
  place span := if isKept span then span else { span with offset := span.offset + 1 }
  through first last := by
    by_cases kept : isKept first
    · have both := (byStart first last).mpr kept
      rw [if_pos both, if_pos kept]
      split <;> rfl
    · have neither : ¬ isKept (first.through last) := fun holds => kept ((byStart first last).mp holds)
      rw [if_neg neither, if_neg kept]
      split <;> rfl

section Keeping

variable {isKept : Span → Prop}
variable (byStart : ∀ first last : Span, isKept (first.through last) ↔ isKept first)

theorem Relocation.place_keeping_iff {span : Span} :
    (Relocation.keeping isKept byStart).place span = span ↔ isKept span := by
  unfold Relocation.keeping
  dsimp only
  by_cases kept : isKept span
  · simp [kept]
  · rw [if_neg kept]
    constructor
    · intro same
      have offset := congrArg Span.offset same
      dsimp only at offset
      omega
    · intro holds
      exact absurd holds kept

theorem relocate_keeping_tokens {tokens : List Token} (kept : ∀ token ∈ tokens, isKept token.span) :
    relocate (Relocation.keeping isKept byStart) tokens = tokens := by
  induction tokens with
  | nil => rfl
  | cons token tokens ih =>
    obtain ⟨first, others⟩ := List.forall_mem_cons.mp kept
    have stays := (Relocation.place_keeping_iff byStart).mpr first
    have same : relocate (Relocation.keeping isKept byStart) token = token := by
      change { token with span := _ } = token
      rw [stays]
    rw [relocate_cons, ih others, same]

end Keeping

namespace Program

variable {limit : Limit} {reading : Reading} {failure : Failure}

/-! ## Where a failure stands -/

/-- If every token of a reading is of a class that is told by the start of a span, and the end of
the reading is so too, then so is every failure to read a program from it. -/
theorem span_of_failure {isKept : Span → Prop}
    (byStart : ∀ first last : Span, isKept (first.through last) ↔ isKept first)
    (tokens : ∀ token ∈ reading.tokens, isKept token.span)
    (finished : ∀ span, reading.ending = .finished span → isKept span)
    (broken : ∀ cause, reading.ending = .broken cause →
      cause.fault.stage = .lexical ∧ isKept cause.span)
    (fails : ofReading limit reading = .error failure) :
    isKept failure.span := by
  have sameTokens := relocate_keeping_tokens byStart tokens
  have sameEnding : reading.ending.relocate (.keeping isKept byStart) = reading.ending := by
    cases ending : reading.ending with
    | finished span =>
      have stays := (Relocation.place_keeping_iff byStart).mpr (finished span ending)
      rw [Ending.relocate, stays]
    | broken cause =>
      obtain ⟨isLexical, kept⟩ := broken cause ending
      have stays := (Relocation.place_keeping_iff byStart).mpr kept
      change Ending.broken ⟨cause.fault.relocate _, _⟩ = Ending.broken cause
      rw [stays, Fault.relocate_of_lexical _ isLexical]
  rw [ofReading_eq_error_iff] at fails
  obtain ⟨reach, -, follows⟩ :=
    (retraces_programParts (.keeping isKept byStart) limit _ false _ rfl).error failure fails
  have ahead := Ahead.all (.keeping isKept byStart) (reach + 1) reading.tokens reading.ending
  rw [sameTokens, sameEnding] at ahead
  have again := follows (reach + 1) (.ofReading reading) ⟨ahead, fun settled => by cases settled⟩
    (Nat.lt_succ_self reach)
  rw [fails] at again
  have same := congrArg Failure.span (Except.error.inj again)
  exact (Relocation.place_keeping_iff byStart).mp same.symm

/-- A failure before the fault of the text is one of the grammar, and does not depend on what stands
behind the tokens. -/
theorem failure_before_fault {cause : Failure} (change : Relocation)
    (isBroken : reading.ending = .broken cause) (differs : failure ≠ cause)
    (fails : ofReading limit reading = .error failure) :
    failure.fault.stage = .grammatical ∧
      ∀ others ending, ofReading limit ⟨relocate change reading.tokens ++ others, ending⟩ =
        .error (relocate change failure) := by
  rw [ofReading_eq_error_iff] at fails
  obtain ⟨reach, blames, follows⟩ :=
    (retraces_programParts change limit _ false _ rfl).error failure fails
  rcases blames with isCause | ⟨isGrammatical, early⟩
  · have sameEnding : reading.ending = .broken failure := isCause
    rw [isBroken] at sameEnding
    exact absurd (Ending.broken.inj sameEnding).symm differs
  · refine ⟨isGrammatical, fun others ending => ?_⟩
    have ahead := Ahead.front change reading.tokens [] others reading.ending ending
    rw [List.append_nil] at ahead
    rw [ofReading_eq_error_iff]
    exact follows _ (.ofReading ⟨_, ending⟩) ⟨ahead, fun settled => by cases settled⟩
      (early cause isBroken)

/-- A failure before the fault of the text starts before it, if all tokens do. -/
theorem offset_before_fault {cause : Failure} (isBroken : reading.ending = .broken cause)
    (differs : failure ≠ cause)
    (before : ∀ token ∈ reading.tokens, token.span.offset < cause.span.offset)
    (fails : ofReading limit reading = .error failure) :
    failure.span.offset < cause.span.offset := by
  have byStart : ∀ first last : Span,
      (first.through last).Before cause.span ↔ first.Before cause.span :=
    fun _ _ => Iff.rfl
  have again := (failure_before_fault (.keeping (·.Before cause.span) byStart) isBroken differs
    fails).2 [] reading.ending
  rw [relocate_keeping_tokens byStart before, List.append_nil, fails] at again
  have stays : failure.span =
      (Relocation.keeping (·.Before cause.span) byStart).place failure.span :=
    congrArg Failure.span (Except.error.inj again)
  exact (Relocation.place_keeping_iff byStart).mp stays.symm

/-! ## Texts -/

end Program

theorem Reading.ofTokens_append {tokens : List Token}
    (inside : ∀ token ∈ tokens, token.kind ≠ .endOfInput) (more : List Token) :
    ∃ others ending, Reading.ofTokens (tokens ++ more) = ⟨tokens ++ others, ending⟩ := by
  have before : (tokens ++ more).takeWhile (·.kind != .endOfInput) =
      tokens ++ more.takeWhile (·.kind != .endOfInput) :=
    List.takeWhile_append_of_pos (by simpa using inside)
  refine ⟨more.takeWhile (·.kind != .endOfInput), (Reading.ofTokens (tokens ++ more)).ending, ?_⟩
  rw [← before]
  rfl

theorem Reading.ofTokens_of_complete {reading : Reading} {tokens : List Token}
    (inside : ∀ token ∈ reading.tokens, token.kind ≠ .endOfInput)
    (complete : reading.complete = .ok tokens) :
    Reading.ofTokens tokens = reading := by
  obtain ⟨body, ending⟩ := reading
  cases ending with
  | broken failure => cases complete
  | finished span =>
    cases complete
    exact Reading.ofTokens_append_stop rfl inside

/-- A place behind the start of a text is told by counting in the text before it. -/
theorem Span.Inside.counted {span : Span} {text : List Char} (inside : span.Inside .start text) :
    ∃ before rest, text = before ++ rest ∧ span.offset = (before.length : Int) ∧
      span.startLine = (lineAt before : Int) ∧ span.startColumn = (columnAt before : Int) := by
  obtain ⟨before, rest, same, starts⟩ := inside
  rw [Position.afterAll_start] at starts
  exact ⟨before, rest, same, starts.offset, starts.line, starts.column⟩

/-- A program is read from a text as it is from the tokens of the text, if these are complete.
Otherwise the fault of the text is reported, or a fault of the grammar before it that whatever
follows the tokens cannot mend. What is reported names the file, and a place in the text with its
line and its column. -/
theorem Program.ofText_reports_first_fault (limit : Limit) (file source : String) :
    (∀ tokens, (Reading.ofText source).complete = .ok tokens →
      Program.ofText limit source = Program.ofTokens limit tokens) ∧
    (∀ cause, (Reading.ofText source).complete = .error cause →
      cause.fault.stage = .lexical ∧
        ∃ failure, Program.ofText limit source = .error failure ∧
          (failure = cause ∨
            failure.fault.stage = .grammatical ∧ failure.span.offset < cause.span.offset ∧
              ∀ more, Program.ofTokens limit ((Reading.ofText source).tokens ++ more) =
                .error failure)) ∧
    ∀ failure, Program.ofText limit source = .error failure →
      ∃ before rest, source.toList = before ++ rest ∧
        failure.span.offset = (before.length : Int) ∧
        failure.span.startLine = (lineAt before : Int) ∧
        failure.span.startColumn = (columnAt before : Int) ∧
        (Diagnostic.ofFailure file failure).location = ⟨file, failure.span⟩ ∧
        failure.describe file =
          file ++ ":" ++ toString (lineAt before) ++ ":" ++ toString (columnAt before) ++ ": " ++
            failure.fault.stage.describe ++ " error: " ++ failure.fault.message := by
  have begun : (Reading.ofText source).Begun .start source.toList := Reading.readOn_begun _ _ _
  have inside : ∀ token ∈ (Reading.ofText source).tokens, token.kind ≠ .endOfInput :=
    fun token member => (begun.tokens token member).1
  refine ⟨?_, ?_, ?_⟩
  · intro tokens complete
    unfold Program.ofText Program.ofTokens
    rw [Reading.ofTokens_of_complete inside complete]
  · intro cause incomplete
    have isBroken : (Reading.ofText source).ending = .broken cause := by
      unfold Reading.complete at incomplete
      cases ending : (Reading.ofText source).ending with
      | finished span => simp [ending] at incomplete
      | broken other =>
        simp only [ending, Except.error.injEq] at incomplete
        rw [incomplete]
    obtain ⟨isLexical, -, -, before⟩ := begun.broken cause isBroken
    refine ⟨isLexical, ?_⟩
    cases outcome : Program.ofText limit source with
    | ok program =>
      obtain ⟨⟨span, isFinished⟩, -⟩ := Program.derives_of_ofReading inside outcome
      rw [isBroken] at isFinished
      cases isFinished
    | error failure =>
      refine ⟨failure, rfl, ?_⟩
      by_cases same : failure = cause
      · exact .inl same
      · obtain ⟨isGrammatical, stays⟩ :=
          Program.failure_before_fault .stay isBroken same outcome
        have earlier := Program.offset_before_fault isBroken same before outcome
        refine .inr ⟨isGrammatical, earlier, fun more => ?_⟩
        obtain ⟨others, ending, reading⟩ := Reading.ofTokens_append inside more
        have again := stays others ending
        rw [Parser.relocate_stay_tokens, Parser.relocate_stay_failure] at again
        rw [Program.ofTokens, reading, again]
  · intro failure fails
    have byStart : ∀ first last : Span, (first.through last).Inside .start source.toList ↔
        first.Inside .start source.toList := by
      intro first last
      constructor
      · rintro ⟨front, rest, same, starts⟩
        exact ⟨front, rest, same, starts.line, starts.column, starts.offset⟩
      · rintro ⟨front, rest, same, starts⟩
        exact ⟨front, rest, same, starts.line, starts.column, starts.offset⟩
    have placed : failure.span.Inside .start source.toList :=
      Program.span_of_failure byStart (fun token member => (begun.tokens token member).2)
        begun.finished
        (fun cause isBroken => ⟨(begun.broken cause isBroken).1, (begun.broken cause isBroken).2.1⟩)
        fails
    obtain ⟨before, rest, same, offset, line, column⟩ := placed.counted
    refine ⟨before, rest, same, offset, line, column, rfl, ?_⟩
    unfold Failure.describe Span.label
    rw [line, column]
    rfl

/-- Two names on a line are reported, and not the stray character on the line behind them. -/
theorem Program.ofText_reports_second_name :
    (Reading.ofText "a b\n@").complete = .error ⟨.strayCharacter '@', ⟨2, 1, 2, 1, 4⟩⟩ ∧
      ∃ failure, Program.ofText .standard "a b\n@" = .error failure ∧
        failure.fault.code = "E201" ∧ failure.span.offset < 4 ∧
          ∀ more, Program.ofTokens .standard ((Reading.ofText "a b\n@").tokens ++ more) =
            .error failure := by
  have incomplete : (Reading.ofText "a b\n@").complete =
      .error ⟨.strayCharacter '@', ⟨2, 1, 2, 1, 4⟩⟩ := by decide +kernel
  have expected : (match Program.ofText .standard "a b\n@" with
      | .ok _ => ""
      | .error failure => failure.fault.code) = "E201" := by decide +kernel
  obtain ⟨-, failure, fails, reported⟩ :=
    (Program.ofText_reports_first_fault .standard "main.cdr" "a b\n@").2.1 _ incomplete
  rw [fails] at expected
  refine ⟨incomplete, failure, fails, expected, ?_⟩
  rcases reported with rfl | ⟨-, earlier, stays⟩
  · exact absurd expected (by decide)
  · exact ⟨earlier, stays⟩

end Parlance
