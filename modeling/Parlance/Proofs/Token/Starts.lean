import Parlance.Proofs.Token.Tiling

/-!
Contract: where the tokens of a text start, and where its first fault stands.

Owns: that every token starts at a place of the text, and none before a token that precedes it, that
a text which is not read to its end has a fault at such a place, behind all the tokens read, and that
a fault of this kind is one of the text and not of the grammar.
-/

namespace Parlance

/-- The first character of a span stands at the given place. -/
structure Span.StartsAt (span : Span) (here : Position) : Prop where
  line : span.startLine = (here.line : Int)
  column : span.startColumn = (here.column : Int)
  offset : span.offset = (here.offset : Int)

theorem Span.startsAt_point (here : Position) : (Span.point here).StartsAt here :=
  ⟨rfl, rfl, rfl⟩

theorem Span.startsAt_between (here behind : Position) : (Span.between here behind).StartsAt here :=
  ⟨rfl, rfl, rfl⟩

theorem Position.offset_afterAll (here : Position) (text : List Char) :
    (here.afterAll text).offset = here.offset + text.length := by
  induction text generalizing here with
  | nil => rfl
  | cons c text ih =>
    have next : (here.after c).offset = here.offset + 1 := by
      unfold Position.after
      split <;> rfl
    rw [Position.afterAll_cons, ih, next, List.length_cons]
    omega

/-- A place in a text that is read from `here` on. -/
def Span.Inside (span : Span) (here : Position) (text : List Char) : Prop :=
  ∃ front rest, text = front ++ rest ∧ span.StartsAt (here.afterAll front)

theorem Span.Inside.append {span : Span} {here : Position} {front text : List Char}
    (inside : span.Inside (here.afterAll front) text) :
    span.Inside here (front ++ text) := by
  obtain ⟨more, rest, rfl, starts⟩ := inside
  refine ⟨front ++ more, rest, by rw [List.append_assoc], ?_⟩
  rw [Position.afterAll_append]
  exact starts

namespace Piece

variable {first : Char} {rest : List Char} {cause : Fault}

/-- What is wrong with a number is its leading zero. -/
theorem stage_of_readNumber {sign : List Char}
    (broken : readNumber sign first rest = .fault cause) :
    cause.stage = .lexical := by
  have zero : digits first rest = .error cause := by
    unfold readNumber at broken
    cases found : digits first rest with
    | error other =>
      simp only [found, fault.injEq] at broken
      rw [broken]
    | ok text => simp [found] at broken
  unfold digits at zero
  split at zero
  · split at zero
    · split at zero
      · cases zero
        rfl
      · cases zero
    · cases zero
  · cases zero

theorem stage_of_readSymbol (broken : readSymbol first rest = .fault cause) :
    cause.stage = .lexical := by
  unfold readSymbol at broken
  split at broken
  · cases broken
  · split at broken
    · cases broken
    · cases broken
      rfl

/-- Text that no token begins with is a fault of the text. -/
theorem stage_of_read {signed : Bool} (broken : read signed first rest = .fault cause) :
    cause.stage = .lexical := by
  unfold read at broken
  repeat' split at broken
  all_goals try cases broken
  · unfold readString at broken
    dsimp only at broken
    split at broken
    · cases broken
    · cases broken
      rfl
  · exact stage_of_readNumber broken
  · exact stage_of_readNumber broken
  · exact stage_of_readSymbol broken
  · exact stage_of_readSymbol broken

end Piece

namespace Reading

variable {reading : Reading} {here : Position} {front : List Char}

/-- What a reading of a text from `here` on says of its places. -/
structure Begun (reading : Reading) (here : Position) (text : List Char) : Prop where
  tokens : ∀ token ∈ reading.tokens, token.kind ≠ .endOfInput ∧ token.span.Inside here text
  finished : ∀ span, reading.ending = .finished span → span.Inside here text
  broken : ∀ failure, reading.ending = .broken failure →
    failure.fault.stage = .lexical ∧ failure.span.Inside here text ∧
      (here.offset : Int) ≤ failure.span.offset ∧
        ∀ token ∈ reading.tokens, token.span.offset < failure.span.offset

theorem Begun.indent {rest : List Char} (begun : reading.Begun (here.afterAll front) rest) :
    reading.Begun here (front ++ rest) := by
  have later : (here.offset : Int) ≤ (here.afterAll front).offset := by
    rw [Position.offset_afterAll]
    omega
  constructor
  · intro token member
    obtain ⟨notOver, inside⟩ := begun.tokens token member
    exact ⟨notOver, inside.append⟩
  · intro span isFinished
    exact (begun.finished span isFinished).append
  · intro failure isBroken
    obtain ⟨isLexical, inside, behind, before⟩ := begun.broken failure isBroken
    exact ⟨isLexical, inside.append, Int.le_trans later behind, before⟩

theorem Begun.cons {first : Char} {rest : List Char} {token : Token}
    (notOver : token.kind ≠ .endOfInput) (starts : token.span.StartsAt here)
    (begun : reading.Begun (here.afterAll (first :: front)) rest) :
    (Reading.cons token reading).Begun here (first :: front ++ rest) := by
  have indented := begun.indent
  constructor
  · intro other member
    rcases List.mem_cons.mp member with rfl | member
    · exact ⟨notOver, [], _, rfl, starts⟩
    · exact indented.tokens other member
  · exact indented.finished
  · intro failure isBroken
    obtain ⟨isLexical, inside, behind, before⟩ := begun.broken failure isBroken
    rw [Position.offset_afterAll, List.length_cons] at behind
    have sameOffset := starts.offset
    refine ⟨isLexical, (indented.broken failure isBroken).2.1, by omega, ?_⟩
    intro other member
    rcases List.mem_cons.mp member with rfl | member
    · omega
    · exact before other member

/-- The tokens of a text start in it, and so does the fault that stops them. -/
theorem readOn_begun (last : Option Kind) (here : Position) (text : List Char) :
    (readOn last here 0 text).Begun here text := by
  have read := readOn_byPieces last here text
  generalize readOn last here 0 text = reading at read ⊢
  induction read with
  | @ended last here =>
    have inside : (Span.point here).Inside here [] := ⟨[], [], rfl, Span.startsAt_point here⟩
    constructor
    · intro token member
      unfold close at member
      split at member
      · cases member
      · cases member
      · rw [List.mem_singleton.mp member]
        exact ⟨by simp, inside⟩
    · intro span isFinished
      cases isFinished
      exact inside
    · intro failure isBroken
      cases isBroken
  | fault isFault =>
    constructor
    · intro token member
      cases member
    · intro span isFinished
      cases isFinished
    · intro failure isBroken
      cases isBroken
      refine ⟨Piece.stage_of_read isFault, ⟨[], _, rfl, Span.startsAt_point _⟩, ?_, ?_⟩
      · exact Int.le_refl _
      · intro token member
        cases member
  | gap _ _ _ begun => exact begun.indent
  | lineBreak _ _ _ begun => exact begun.cons (by simp) (Span.startsAt_point _)
  | word _ spelled _ begun => exact begun.cons spelled.kind_ne.2 (Span.startsAt_between _ _)

/-- Each token starts where the one before it does or further on, and so does the end. -/
structure Ordered (reading : Reading) (here : Position) : Prop where
  behind : ∀ token ∈ reading.tokens, (here.offset : Int) ≤ token.span.offset
  sorted : reading.tokens.Pairwise fun token later => token.span.offset ≤ later.span.offset
  finished : ∀ span, reading.ending = .finished span → (here.offset : Int) ≤ span.offset ∧
    ∀ token ∈ reading.tokens, token.span.offset ≤ span.offset

theorem Ordered.indent (ordered : reading.Ordered (here.afterAll front)) :
    reading.Ordered here := by
  have later : (here.offset : Int) ≤ (here.afterAll front).offset := by
    rw [Position.offset_afterAll]
    omega
  constructor
  · intro token member
    exact Int.le_trans later (ordered.behind token member)
  · exact ordered.sorted
  · intro span isFinished
    obtain ⟨behind, before⟩ := ordered.finished span isFinished
    exact ⟨Int.le_trans later behind, before⟩

theorem Ordered.cons {token : Token} (starts : token.span.StartsAt here)
    (ordered : reading.Ordered (here.afterAll front)) :
    (Reading.cons token reading).Ordered here := by
  have indented := ordered.indent
  have offset := starts.offset
  constructor
  · intro other member
    rcases List.mem_cons.mp member with rfl | member
    · omega
    · exact indented.behind other member
  · refine List.pairwise_cons.mpr ⟨fun other member => ?_, indented.sorted⟩
    have behind := indented.behind other member
    omega
  · intro span isFinished
    obtain ⟨behind, before⟩ := indented.finished span isFinished
    refine ⟨behind, fun other member => ?_⟩
    rcases List.mem_cons.mp member with rfl | member
    · omega
    · exact before other member

theorem readOn_ordered (last : Option Kind) (here : Position) (text : List Char) :
    (readOn last here 0 text).Ordered here := by
  have read := readOn_byPieces last here text
  generalize readOn last here 0 text = reading at read ⊢
  induction read with
  | @ended last here =>
    have closing : ∀ token ∈ (close last here).tokens, token.span = .point here := by
      intro token member
      unfold close at member
      split at member
      · cases member
      · cases member
      · rw [List.mem_singleton.mp member]
    constructor
    · intro token member
      rw [closing token member]
      exact Int.le_refl _
    · unfold close
      split <;> simp
    · intro span isFinished
      cases isFinished
      refine ⟨Int.le_refl _, fun token member => ?_⟩
      exact Int.le_of_eq (by rw [closing token member])
  | fault => exact ⟨by simp, .nil, by simp⟩
  | gap _ _ _ ordered => exact ordered.indent
  | lineBreak _ _ _ ordered => exact ordered.cons (Span.startsAt_point _)
  | word _ _ _ ordered => exact ordered.cons (Span.startsAt_between _ _)

end Reading

end Parlance
