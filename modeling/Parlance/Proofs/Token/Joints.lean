import Parlance.Proofs.Text.Rows
import Parlance.Proofs.Tint.Painting

/-!
Contract: the places of a text at which its pieces meet.

Tokens, faults and the end of the input start where two pieces meet. Owns: what the characters on
the two sides of such a place can be (`Joint`), that a reading starts its tokens at such places only
(`Reading.ofText_atJoints`), and what stands behind the place of a word.
-/

namespace Parlance

variable {source : List Char} {here : Position}

/-- Two pieces meet: no line break is cut in two, and a character of names stands directly before
the first character of a name only if it is a digit. -/
structure Joint (before after : List Char) : Prop where
  apart : Text.Apart before after
  word : ∀ c ∈ before.getLast?, ∀ d ∈ after.head?, Text.isNameContinue c = true →
    Text.isNameStart d = true → c.isDigit = true

/-! ## The ends of pieces -/

namespace Joint

variable {before front rest : List Char}

theorem nil (rest : List Char) : Joint [] rest :=
  ⟨fun isLast => absurd isLast (by simp), by simp⟩

theorem append (filled : front ≠ []) (joint : Joint front rest) : Joint (before ++ front) rest := by
  constructor
  · intro isLast
    exact joint.apart (by rwa [List.getLast?_append_of_ne_nil _ filled] at isLast)
  · rw [List.getLast?_append_of_ne_nil _ filled]
    exact joint.word

/-- A piece that ends neither like a name nor with a carriage return may stand before anything. -/
theorem of_last (free : ∀ c ∈ front.getLast?, c ≠ '\r' ∧
    (Text.isNameContinue c = true → c.isDigit = true)) :
    Joint front rest where
  apart isLast := absurd rfl (free _ isLast).1
  word c isLast _ _ inName _ := (free c isLast).2 inName

end Joint

namespace Piece

variable {front rest : List Char}

/-- A comment is left where a line ends. -/
theorem joint_of_comment (isComment : Comment front rest) : Joint ('#' :: front) rest := by
  constructor
  · intro isReturn isFeed
    obtain ⟨more, rfl⟩ := List.head?_eq_some_iff.mp isFeed
    rcases List.eq_nil_or_concat front with rfl | ⟨start, c, rfl⟩
    · cases isReturn
    · rw [List.concat_eq_append] at isComment isReturn
      have isLast : ('#' :: (start ++ [c])).getLast? = some c := by
        rw [← List.cons_append]
        exact List.getLast?_concat
      obtain rfl : c = '\r' := Option.some.inj (isLast.symm.trans isReturn)
      have stays := isComment.open_ start ['\r'] rfl (by simp)
      cases stays
  · intro c _ d isHead _ starts
    rw [Tint.notStart_of_break isComment.ends d isHead] at starts
    contradiction

theorem joint_of_gap {width : Nat} (cuts : (Piece.gap width).Cuts front rest) :
    Joint front rest := by
  cases cuts with
  | space =>
    refine .of_last ?_
    rintro _ ⟨⟩
    decide +kernel
  | comment isComment => exact joint_of_comment isComment

theorem joint_of_lineBreak {width : Nat} (cuts : (Piece.lineBreak width).Cuts front rest) :
    Joint front rest := by
  cases cuts with
  | feed | returnFeed =>
    refine .of_last ?_
    rintro _ ⟨⟩
    decide +kernel

theorem joint_of_word {signed : Bool} {word : Lexeme} {first : Char}
    (read : Piece.read signed first (front ++ rest) =
      .word (first :: front).length word.kind word.text word.quote)
    (spelled : word.Spelled (first :: front)) :
    Joint (first :: front) rest := by
  generalize same : first :: front = spelling at spelled
  cases spelled with
  | word starts continues =>
    obtain ⟨rfl, rfl⟩ := List.cons.inj same
    have clear := Piece.clear_of_read read starts
    have inside : ∀ c ∈ first :: front, Text.isNameContinue c = true :=
      List.forall_mem_cons.mpr ⟨Text.isNameContinue_of_isNameStart first starts, continues⟩
    constructor
    · intro isLast
      exact absurd (inside '\r' (List.mem_of_getLast? isLast)) (by decide +kernel)
    · intro c _ d isHead _ begins
      have goesOn := Text.isNameContinue_of_isNameStart d begins
      rw [clear d isHead] at goesOn
      contradiction
  | number isSign numeral =>
    refine .of_last fun c isLast => ?_
    rcases List.mem_append.mp (List.mem_of_getLast? isLast) with member | member
    · rcases isSign with rfl | rfl
      · cases member
      · obtain rfl := List.mem_singleton.mp member
        decide +kernel
    · rcases numeral.plain.2 c member with rfl | isDigit
      · decide +kernel
      · exact ⟨Text.ne_of_isDigit isDigit (by decide), fun _ => isDigit⟩
  | string isQuote free =>
    rename_i quote body
    rw [← List.cons_append]
    refine .of_last fun c isLast => ?_
    obtain rfl : quote = c := Option.some.inj (List.getLast?_concat.symm.trans isLast)
    rcases isQuote with rfl | rfl <;> decide +kernel
  | symbol mark =>
    have checked : Symbol.all.all (fun mark => mark.spelling.toList.all fun c =>
        c != '\r' && !Text.isNameContinue c) = true := by decide +kernel
    have isListed : mark ∈ Symbol.all := by cases mark <;> decide
    refine .of_last fun c isLast => ?_
    have holds := List.all_eq_true.mp (List.all_eq_true.mp checked mark isListed) c
      (List.mem_of_getLast? isLast)
    rw [Bool.and_eq_true, bne_iff_ne, Bool.not_eq_true'] at holds
    exact ⟨holds.1, fun inName => absurd inName (by rw [holds.2]; decide)⟩

end Piece

/-! ## Readings -/

/-- A place between two pieces of a text. -/
structure Position.Joins (here : Position) (source before after : List Char) : Prop where
  whole : source = before ++ after
  joint : Joint before after
  place : here = Position.start.afterAll before

theorem Position.Joins.step {before front rest : List Char} {first : Char}
    (joins : here.Joins source before (first :: front ++ rest))
    (joint : Joint (first :: front) rest) :
    (here.afterAll (first :: front)).Joins source (before ++ first :: front) rest where
  whole := by rw [joins.whole, List.append_assoc]
  joint := joint.append (List.cons_ne_nil first front)
  place := by rw [joins.place, Position.afterAll_append]

/-- A token is a name or a reserved word. -/
def Token.isWord (token : Token) : Bool :=
  token.kind == .name || token.isReserved

/-- A token is the longest word at the front of a text. -/
structure Token.Leads (token : Token) (first : Char) (more rest : List Char) : Prop where
  text : token.text = String.ofList (first :: more)
  starts : Text.isNameStart first = true
  continues : ∀ c ∈ more, Text.isNameContinue c = true
  clear : ∀ c ∈ rest.head?, Text.isNameContinue c = false
  ends : token.span.endColumn = token.span.startColumn + more.length

/-- What is known of a token in its text. -/
structure Token.Stands (token : Token) (source : List Char) : Prop where
  place : ∃ before after here, here.Joins source before after ∧ token.span.StartsAt here
  word : token.isWord = true → ∃ before first more rest here,
    here.Joins source before (first :: more ++ rest) ∧ token.span.StartsAt here ∧
      token.Leads first more rest

namespace Reading

/-- All that a reading tells of a text starts where two pieces meet. -/
structure AtJoints (reading : Reading) (source : List Char) : Prop where
  tokens : ∀ token ∈ reading.tokens, token.Stands source
  finished : ∀ span, reading.ending = .finished span →
    ∃ before after here, here.Joins source before after ∧ span.StartsAt here
  broken : ∀ failure, reading.ending = .broken failure →
    ∃ before after here, here.Joins source before after ∧ failure.span.StartsAt here

theorem AtJoints.cons {reading : Reading} {token : Token} (stands : token.Stands source)
    (further : reading.AtJoints source) : (Reading.cons token reading).AtJoints source := by
  refine ⟨?_, further.finished, further.broken⟩
  intro other member
  rcases List.mem_cons.mp member with rfl | member
  · exact stands
  · exact further.tokens other member

/-- A line break is no word. -/
theorem stands_newline {before after : List Char} (text : String)
    (joins : here.Joins source before after) :
    Token.Stands ⟨.newline, text, "", .point here⟩ source where
  place := ⟨before, after, here, joins, Span.startsAt_point here⟩
  word isWord := by simp [Token.isWord, Token.isReserved] at isWord

theorem endColumn_between {before after text : List Char} (joins : here.Joins source before after)
    (noFeed : '\n' ∉ text) (filled : text ≠ []) :
    (Span.between here (here.afterAll text)).endColumn + 1 = here.column + text.length := by
  have first : here.column = columnAt before := by rw [joins.place, Position.afterAll_start]
  have behind : (here.afterAll text).column = here.column + text.length := by
    rw [first, joins.place, ← Position.afterAll_append, Position.afterAll_start,
      columnAt_append noFeed]
  have later : 1 < (here.afterAll text).column := by
    have := List.length_pos_iff.mpr filled
    rw [behind, first, columnAt]
    omega
  rw [Span.between, if_pos later]
  dsimp only
  omega

theorem stands_word {signed : Bool} {before front rest : List Char} {word : Lexeme} {first : Char}
    (joins : here.Joins source before (first :: front ++ rest))
    (read : Piece.read signed first (front ++ rest) =
      .word (first :: front).length word.kind word.text word.quote)
    (spelled : word.Spelled (first :: front)) :
    Token.Stands ⟨word.kind, word.text, word.quote, .between here (here.afterAll (first :: front))⟩
      source where
  place := ⟨before, _, here, joins, Span.startsAt_between here _⟩
  word isWord := by
    refine ⟨before, first, front, rest, here, joins, Span.startsAt_between here _, ?_⟩
    generalize same : first :: front = spelling at spelled
    cases spelled with
    | word starts continues =>
      obtain ⟨rfl, rfl⟩ := List.cons.inj same
      have noFeed : '\n' ∉ first :: front := by
        intro member
        rcases List.mem_cons.mp member with rfl | member
        · contradiction
        · exact absurd (continues '\n' member) (by decide +kernel)
      have ends := endColumn_between joins noFeed (List.cons_ne_nil first front)
      have begins : (Span.between here (here.afterAll (first :: front))).startColumn =
          here.column := rfl
      refine ⟨rfl, starts, continues, Piece.clear_of_read read starts, ?_⟩
      rw [List.length_cons] at ends
      dsimp only
      omega
    | _ => simp [Token.isWord, Token.isReserved] at isWord

/-- **Places of a reading.** All tokens of a text start where two pieces meet, and so do its end and
its first fault. -/
theorem ByPieces.atJoints {last : Option Kind} {text : List Char} {reading : Reading}
    (read : ByPieces last here text reading) {before : List Char}
    (joins : here.Joins source before text) : reading.AtJoints source := by
  induction read generalizing before with
  | @ended last here =>
    refine ⟨fun token member => ?_, fun span isEnd => ?_, fun failure isBroken => ?_⟩
    · unfold close at member
      split at member
      · cases member
      · cases member
      · rw [List.mem_singleton.mp member]
        exact stands_newline "" joins
    · cases isEnd
      exact ⟨before, [], here, joins, Span.startsAt_point here⟩
    · cases isBroken
  | @fault last here first others cause isFault =>
    refine ⟨fun token member => ?_, fun span isEnd => ?_, fun failure isBroken => ?_⟩
    · cases member
    · cases isEnd
    · cases isBroken
      exact ⟨before, first :: others, here, joins, Span.startsAt_point here⟩
  | gap _ cuts _ ih => exact ih (joins.step (Piece.joint_of_gap cuts))
  | lineBreak _ cuts _ ih =>
    exact .cons (stands_newline "\n" joins) (ih (joins.step (Piece.joint_of_lineBreak cuts)))
  | word read spelled _ ih =>
    exact .cons (stands_word joins read spelled)
      (ih (joins.step (Piece.joint_of_word read spelled)))

theorem ofText_atJoints (source : String) : (ofText source).AtJoints source.toList :=
  (ofText_byPieces source).atJoints ⟨rfl, .nil _, rfl⟩

end Reading

end Parlance
