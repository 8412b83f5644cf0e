import Parlance.Proofs.Token.Lookahead
import Parlance.Proofs.Token.Extent

/-!
Contract: a stretch of a text from one token to another is read alone as it is read in the text.

What stands before a token bears on it only through the minus sign: behind the end of an operand a
minus sign is an operator. What stands behind a token does not bear on it at all. Owns: the reading
of a text from a token on, the reading of a text cut off behind a token, and from the two the words
of a stretch that stands alone.
-/

namespace Parlance

variable {front : List Token} {here : Position} {token : Token}

/-- The kind of the last token of a row, or the given one if the row is empty. -/
def kindBehind (last : Option Kind) : List Token → Option Kind
  | [] => last
  | token :: rest => kindBehind (some token.kind) rest

theorem kindBehind_append (last : Option Kind) (front back : List Token) :
    kindBehind last (front ++ back) = kindBehind (kindBehind last front) back := by
  induction front generalizing last with
  | nil => rfl
  | cons token front ih => exact ih (some token.kind)

/-- Behind a token of this kind, or at the start of a text, a minus sign belongs to a number. -/
def Quiet (last : Option Kind) : Prop :=
  last.any Kind.endsOperand = false

namespace Reading

theorem kind_of_mem_close {last : Option Kind} (member : token ∈ (close last here).tokens) :
    token.kind = .newline := by
  unfold close at member
  split at member
  · cases member
  · cases member
  · rw [List.mem_singleton.mp member]

/-! ## From a token on -/

/-- A text is read from a token on as it is at the start of a text, if the token before it does not
end an operand. -/
theorem readOn_from {last : Option Kind} {text : List Char} {rest : List Token}
    (tokens : (readOn last here 0 text).tokens = front ++ token :: rest)
    (isWord : token.kind ≠ .newline) (quiet : Quiet (kindBehind last front)) :
    ∃ before after, text = before ++ after ∧ token.span.StartsAt (here.afterAll before) ∧
      readOn none (here.afterAll before) 0 after =
        ⟨token :: rest, (readOn last here 0 text).ending⟩ := by
  have read := readOn_byPieces last here text
  generalize readOn last here 0 text = reading at read tokens ⊢
  induction read generalizing front with
  | @ended last here =>
    have member : token ∈ (close last here).tokens := by simp [tokens]
    exact absurd (kind_of_mem_close member) isWord
  | fault => cases front <;> cases tokens
  | gap _ _ _ ih =>
    obtain ⟨before, after, rfl, starts, reads⟩ := ih quiet tokens
    rw [← Position.afterAll_append] at starts reads
    exact ⟨_, after, (List.append_assoc _ _ _).symm, starts, reads⟩
  | lineBreak _ _ _ ih =>
    cases front with
    | nil => exact absurd (congrArg Token.kind (List.cons.inj tokens).1).symm isWord
    | cons lineEnd front =>
      obtain ⟨rfl, behind⟩ := List.cons.inj tokens
      obtain ⟨before, after, rfl, starts, reads⟩ := ih quiet behind
      rw [← Position.afterAll_append] at starts reads
      exact ⟨_, after, (List.append_assoc _ _ _).symm, starts, reads⟩
  | @word last here word first taken others reading reads _ behind ih =>
    cases front with
    | nil =>
      -- The token is this word, and the sign rule is the same here as at the start of a text.
      have atStart : (!(none : Option Kind).any Kind.endsOperand) =
          !last.any Kind.endsOperand := by
        have sameSign : last.any Kind.endsOperand = false := quiet
        rw [sameSign]
        rfl
      rw [← atStart] at reads
      obtain ⟨rfl, rfl⟩ := List.cons.inj tokens
      refine ⟨[], first :: taken ++ others, rfl, Span.startsAt_between here _, ?_⟩
      rw [Position.afterAll_nil, readOn_word reads, ← behind.eq]
      rfl
    | cons other front =>
      obtain ⟨rfl, behind⟩ := List.cons.inj tokens
      obtain ⟨before, after, rfl, starts, reads⟩ := ih quiet behind
      rw [← Position.afterAll_append] at starts reads
      exact ⟨_, after, (List.append_assoc _ _ _).symm, starts, reads⟩

/-! ## Up to a token -/

theorem read_of_startsBreak (signed : Bool) {first : Char} {front rest : List Char}
    (starts : startsBreak (first :: front ++ rest) = true) :
    ∃ width, Piece.read signed first (front ++ rest) = .lineBreak width := by
  rw [List.cons_append] at starts
  generalize front ++ rest = others at starts ⊢
  unfold startsBreak at starts
  split at starts
  · rename_i isFeed
    obtain ⟨rfl, -⟩ := List.cons.inj isFeed
    exact ⟨1, rfl⟩
  · rename_i isReturn
    obtain ⟨rfl, rfl⟩ := List.cons.inj isReturn
    exact ⟨2, rfl⟩
  · cases starts

/-- A text that ends behind a token of a longer text is read as that one is, up to the token, and
then closed. It ends with the last character of the token. -/
structure EndsBehind (reading : Reading) (here : Position) (text slice : List Char)
    (front : List Token) (token : Token) : Prop where
  reads : reading = ⟨front ++ [token, ⟨.newline, "", "", .point (here.afterAll slice)⟩],
    .finished (.point (here.afterAll slice))⟩
  stops : ∃ start, token.span = .between start (here.afterAll slice)
  ends : ∃ init c, slice = init ++ [c] ∧ c ≠ '\n'
  uncut : startsBreak text = true → startsBreak slice = true

theorem EndsBehind.cons {reading : Reading} {taken text slice : List Char} (first : Token)
    (closed : EndsBehind reading (here.afterAll taken) text slice front token)
    (uncut : startsBreak (taken ++ text) = true → startsBreak (taken ++ slice) = true) :
    EndsBehind (Reading.cons first reading) here (taken ++ text) (taken ++ slice)
      (first :: front) token := by
  obtain ⟨reads, stops, ⟨init, c, rfl, noFeed⟩, -⟩ := closed
  rw [← Position.afterAll_append] at reads stops
  refine ⟨?_, stops, ⟨taken ++ init, c, (List.append_assoc _ _ _).symm, noFeed⟩, uncut⟩
  rw [reads]
  rfl

theorem readOn_upTo {last : Option Kind} {text : List Char} {rest : List Token}
    (tokens : (readOn last here 0 text).tokens = front ++ token :: rest)
    (isWord : token.kind ≠ .newline) :
    ∃ slice after, text = slice ++ after ∧
      EndsBehind (readOn last here 0 slice) here text slice front token := by
  have read := readOn_byPieces last here text
  generalize readOn last here 0 text = reading at read tokens
  induction read generalizing front with
  | @ended last here =>
    have member : token ∈ (close last here).tokens := by simp [tokens]
    exact absurd (kind_of_mem_close member) isWord
  | fault => cases front <;> cases tokens
  | @gap last here first taken others _ isGap _ _ ih =>
    obtain ⟨slice, after, rfl, reads, stops, ⟨init, c, rfl, noFeed⟩, uncut⟩ := ih tokens
    have again := Piece.read_gap_cut isGap uncut
    rw [← Position.afterAll_append] at reads stops
    refine ⟨first :: taken ++ (init ++ [c]), after, (List.append_assoc _ _ _).symm, ?_, stops,
      ⟨first :: taken ++ init, c, (List.append_assoc _ _ _).symm, noFeed⟩, ?_⟩
    · rw [readOn_gap again]
      exact reads
    · intro starts
      obtain ⟨width, isBreak⟩ := read_of_startsBreak (!last.any Kind.endsOperand) starts
      rw [isGap] at isBreak
      cases isBreak
  | @lineBreak last here first taken others _ isBreak cuts _ ih =>
    cases front with
    | nil => exact absurd (congrArg Token.kind (List.cons.inj tokens).1).symm isWord
    | cons lineEnd front =>
      obtain ⟨rfl, behind⟩ := List.cons.inj tokens
      obtain ⟨slice, after, rfl, closed⟩ := ih behind
      have again := Piece.read_lineBreak_cut isBreak
      refine ⟨first :: taken ++ slice, after, (List.append_assoc _ _ _).symm, ?_⟩
      rw [readOn_lineBreak again]
      apply closed.cons
      intro _
      generalize (first :: taken).length = width at cuts
      cases cuts <;> rfl
  | @word last here word first taken others _ reads spelled _ ih =>
    have noBreak : startsBreak (first :: taken ++ others) = true → False := by
      intro starts
      obtain ⟨width, isBreak⟩ := read_of_startsBreak (!last.any Kind.endsOperand) starts
      rw [reads] at isBreak
      cases isBreak
    cases front with
    | nil =>
      obtain ⟨rfl, rfl⟩ := List.cons.inj tokens
      have again : Piece.read (!last.any Kind.endsOperand) first (taken ++ []) =
          .word (first :: taken).length word.kind word.text word.quote :=
        Piece.read_word_cut reads
      have whole : first :: taken = first :: taken ++ [] := (List.append_nil _).symm
      refine ⟨first :: taken, others, rfl, ?_, ⟨here, rfl⟩, spelled.ends, fun starts =>
        (noBreak starts).elim⟩
      rw [whole, readOn_word again, List.append_nil, readOn]
      unfold close
      split
      · rename_i isNone
        cases isNone
      · rename_i isBreak
        exact absurd (Option.some.inj isBreak) isWord
      · rfl
    | cons other front =>
      obtain ⟨rfl, behind⟩ := List.cons.inj tokens
      obtain ⟨slice, after, rfl, closed⟩ := ih behind
      have again := Piece.read_word_cut reads
      refine ⟨first :: taken ++ slice, after, (List.append_assoc _ _ _).symm, ?_⟩
      rw [readOn_word again]
      exact closed.cons _ fun starts => (noBreak starts).elim

/-! ## Alone -/

/-- Where a text stands does not bear on its words, nor on whether it has a fault. -/
theorem readOn_elsewhere (last : Option Kind) (here there : Position) (text : List Char) :
    (readOn last there 0 text).tokens.map Token.lexeme =
        (readOn last here 0 text).tokens.map Token.lexeme ∧
      ∀ span, (readOn last here 0 text).ending = .finished span →
        ∃ place, (readOn last there 0 text).ending = .finished place := by
  have read := readOn_byPieces last here text
  generalize readOn last here 0 text = reading at read ⊢
  induction read generalizing there with
  | ended =>
    refine ⟨?_, fun _ _ => ⟨_, rfl⟩⟩
    unfold readOn close
    dsimp only
    split <;> rfl
  | fault broken =>
    rw [readOn, broken]
    refine ⟨rfl, fun span finished => ?_⟩
    cases finished
  | gap isGap _ _ same =>
    rw [readOn_gap isGap]
    exact same _
  | lineBreak isBreak _ _ same =>
    rw [readOn_lineBreak isBreak]
    exact ⟨congrArg (_ :: ·) (same _).1, (same _).2⟩
  | word reads _ _ same =>
    rw [readOn_word reads]
    exact ⟨congrArg (_ :: ·) (same _).1, (same _).2⟩

/-- A span that starts behind a text and one that ends behind a stretch of text cover that
stretch. -/
theorem covers_through {left right : Span} {before slice : List Char}
    (starts : left.StartsAt (Position.start.afterAll before))
    (stops : ∃ start, right = .between start ((Position.start.afterAll before).afterAll slice))
    (ends : ∃ init c, slice = init ++ [c] ∧ c ≠ '\n') (beyond : List Char) :
    (left.through right).Covers (before ++ (slice ++ beyond)) before.length
      (before.length + slice.length) := by
  obtain ⟨start, rfl⟩ := stops
  obtain ⟨init, c, rfl, noFeed⟩ := ends
  have reaches := Span.ends_between noFeed start (before ++ init)
  rw [List.append_assoc, Position.afterAll_append] at reaches
  rw [Position.afterAll_start before] at starts
  exact Span.covers_stretch c beyond starts.offset starts.line starts.column reaches.1 reaches.2

/-- The stretch that a row of tokens covers is read alone as the words of the row, with a line break
to close the line. The row neither begins nor ends with a line break, and does not begin behind the
end of an operand. -/
theorem ofText_slice {source : String} {row back : List Token} {first last : Token}
    {start behind : Nat} (tokens : (ofText source).tokens = front ++ (row ++ back))
    (isFirst : row.head? = some first) (isLast : row.getLast? = some last)
    (opens : first.kind ≠ .newline) (ends : last.kind ≠ .newline)
    (quiet : Quiet (kindBehind none front))
    (covers : (rowSpan row).Covers source.toList start behind) :
    (ofText (String.ofList ((source.toList.drop start).take (behind - start)))).tokens.map
          Token.lexeme =
        row.map Token.lexeme ++ [⟨.newline, "", ""⟩] ∧
      ∃ span, (ofText (String.ofList ((source.toList.drop start).take (behind - start)))).ending =
        .finished span := by
  obtain ⟨rest, rfl⟩ := List.head?_eq_some_iff.mp isFirst
  obtain ⟨before, after, whole, starts, reads⟩ := readOn_from tokens opens quiet
  obtain ⟨init, rowEnds⟩ := List.getLast?_eq_some_iff.mp isLast
  have upTo : (readOn none (Position.start.afterAll before) 0 after).tokens =
      init ++ last :: back := by
    rw [reads]
    change first :: rest ++ back = _
    rw [rowEnds, List.append_assoc]
    rfl
  obtain ⟨slice, beyond, rfl, closed⟩ := readOn_upTo upTo ends
  have isStretch : (rowSpan (first :: rest)).Covers source.toList before.length
      (before.length + slice.length) := by
    rw [rowSpan_of_ends isFirst isLast, whole]
    exact covers_through starts closed.stops closed.ends beyond
  obtain ⟨rfl, rfl⟩ := covers.unique isStretch
  have cut : (source.toList.drop before.length).take
      (before.length + slice.length - before.length) = slice := by
    rw [whole, List.drop_left, Nat.add_sub_cancel_left, List.take_left]
  rw [cut]
  obtain ⟨sameWords, sameEnding⟩ :=
    readOn_elsewhere none (Position.start.afterAll before) .start slice
  rw [closed.reads] at sameWords sameEnding
  rw [ofText, String.toList_ofList]
  refine ⟨?_, sameEnding _ rfl⟩
  rw [sameWords, rowEnds]
  simp [Token.lexeme]

end Reading

end Parlance
