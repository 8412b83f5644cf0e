import Parlance.Proofs.Tint.Calm
import Parlance.Proofs.Token.Respacing

/-!
Contract: the tinted text and the tokens agree on what is a string and what is a comment.

Owns: the comments that the reading of a text skips (`Reading.comments`), the pieces that strings and
comments should have, and the theorem that a text read without a fault has exactly these pieces for
its strings and its comments. A piece never runs from code into a quote or out of one: where a token
ends, the piece at that place runs on over faint characters only, and no string or comment begins
with one.
-/

namespace Parlance

variable {body : List Char}

/-! ## Comments -/

/-- The comments that are skipped in the rest of a text, each with its offset. The arguments are those
of the reading of the text. -/
def Reading.commentsOn (last : Option Kind)
    (offset : Nat) : Nat → List Char → List (Nat × List Char)
  | _, [] => []
  | skip + 1, _ :: rest => commentsOn last (offset + 1) skip rest
  | 0, c :: rest =>
    match Piece.read (!last.any Kind.endsOperand) c rest with
    | .gap width =>
      (if c == '#' then [(offset, (c :: rest).take width)] else []) ++
        commentsOn last (offset + 1) (width - 1) rest
    | .lineBreak width => commentsOn (some .newline) (offset + 1) (width - 1) rest
    | .word width kind _ _ => commentsOn (some kind) (offset + 1) (width - 1) rest
    | .fault _ => []

def Reading.comments (source : String) : List (Nat × List Char) :=
  commentsOn none 0 0 source.toList

namespace Reading

theorem commentsOn_skip (last : Option Kind) (offset : Nat) (front rest : List Char) :
    commentsOn last offset front.length (front ++ rest) =
      commentsOn last (offset + front.length) 0 rest := by
  induction front generalizing offset with
  | nil => rfl
  | cons c front ih =>
    have further := ih (offset + 1)
    rw [Nat.add_assoc, Nat.add_comm 1] at further
    exact further

theorem commentsOn_gap {last : Option Kind} {first : Char} {front rest : List Char}
    (read : Piece.read (!last.any Kind.endsOperand) first (front ++ rest) =
      .gap (first :: front).length) (offset : Nat) :
    commentsOn last offset 0 (first :: front ++ rest) =
      (if first == '#' then [(offset, first :: front)] else []) ++
        commentsOn last (offset + (first :: front).length) 0 rest := by
  have taken : (first :: (front ++ rest)).take (first :: front).length = first :: front := by
    rw [← List.cons_append, List.take_left]
  have behind := commentsOn_skip last (offset + 1) front rest
  rw [Nat.add_assoc, Nat.add_comm 1, ← List.length_cons (a := first)] at behind
  rw [List.cons_append, commentsOn, read]
  dsimp only
  rw [taken, List.length_cons, Nat.add_sub_cancel, ← List.length_cons (a := first), behind]

theorem commentsOn_lineBreak {last : Option Kind} {first : Char} {front rest : List Char}
    (read : Piece.read (!last.any Kind.endsOperand) first (front ++ rest) =
      .lineBreak (first :: front).length) (offset : Nat) :
    commentsOn last offset 0 (first :: front ++ rest) =
      commentsOn (some .newline) (offset + (first :: front).length) 0 rest := by
  have behind := commentsOn_skip (some .newline) (offset + 1) front rest
  rw [Nat.add_assoc, Nat.add_comm 1] at behind
  rw [List.cons_append, commentsOn, read]
  exact behind

theorem commentsOn_word {last : Option Kind} {first : Char} {front rest : List Char} {kind : Kind}
    {text quote : String}
    (read : Piece.read (!last.any Kind.endsOperand) first (front ++ rest) =
      .word (first :: front).length kind text quote) (offset : Nat) :
    commentsOn last offset 0 (first :: front ++ rest) =
      commentsOn (some kind) (offset + (first :: front).length) 0 rest := by
  have behind := commentsOn_skip (some kind) (offset + 1) front rest
  rw [Nat.add_assoc, Nat.add_comm 1] at behind
  rw [List.cons_append, commentsOn, read]
  exact behind

end Reading

/-! ## Strings and comments -/

namespace Tint

def isString : Tint → Bool
  | .doubleString | .singleString => true
  | _ => false

theorem first_string {quote : Char} (isQuote : quote = '\x22' ∨ quote = '\x27')
    (free : quote ∉ body) (before : Option Char) (rest : List Char) :
    first before (quote :: (body ++ [quote]) ++ rest) =
      (if quote = '\x22' then .doubleString else .singleString,
        (quote :: (body ++ [quote])).length) := by
  have inside := Piece.takeWhile_quote free rest
  have text : quote :: (body ++ [quote]) ++ rest = quote :: (body ++ quote :: rest) := by simp
  have taken : Rule.string quote before (quote :: (body ++ quote :: rest)) =
      (quote :: (body ++ [quote])).length := by
    simp [Rule.string, inside]
  rw [text]
  rcases isQuote with rfl | rfl
  · rw [first_drop 2 (by decide), ← taken]
    exact firstOf_cons (by rw [taken]; simp)
  · rw [first_drop 3 (by decide), ← taken]
    exact firstOf_cons (by rw [taken]; simp)

theorem first_comment (before : Option Char) (rest : List Char) :
    first before ('#' :: rest) = (.comment, ('#' :: rest.takeWhile (· != '\n')).length) := by
  rw [first_drop 1 (by decide)]
  exact firstOf_cons (by simp [Rule.comment])

def ofString? (token : Token) : Option Piece :=
  if token.kind = .string then
    some ⟨token.span.offset.toNat, if token.quote = "\x22" then .doubleString else .singleString,
      token.quote.toList ++ (token.text.toList ++ token.quote.toList)⟩
  else none

/-- The piece for a comment, which takes the carriage return of a line break behind it. -/
def ofComment (source : List Char) (comment : Nat × List Char) : Piece :=
  let behind := source.drop (comment.1 + comment.2.length)
  ⟨comment.1, .comment, comment.2 ++ if ['\r', '\n'].isPrefixOf behind then ['\r'] else []⟩

/-- The pieces of strings and comments in the rest of a text are those of its tokens and of the
comments between them. -/
structure Agrees (pieces : List Piece) (tokens : List Token) (comments : List (Nat × List Char))
    (source : List Char) : Prop where
  strings : pieces.filter (·.tint.isString) = tokens.filterMap ofString?
  comments : pieces.filter (·.tint == .comment) = comments.map (ofComment source)

theorem Agrees.append {own pieces : List Piece} {tokens : List Token}
    {comments : List (Nat × List Char)} {source : List Char}
    (quiet : ∀ piece ∈ own, piece.tint.isQuiet = true)
    (agrees : Agrees pieces tokens comments source) :
    Agrees (own ++ pieces) tokens comments source := by
  have noString : own.filter (·.tint.isString) = [] := by
    rw [List.filter_eq_nil_iff]
    intro piece member
    have isQuiet := quiet piece member
    cases tint : piece.tint <;> rw [tint] at isQuiet <;> first | contradiction | simp [isString]
  have noComment : own.filter (·.tint == .comment) = [] := by
    rw [List.filter_eq_nil_iff]
    intro piece member
    have isQuiet := quiet piece member
    cases tint : piece.tint <;> rw [tint] at isQuiet <;> first | contradiction | simp
  exact ⟨by rw [List.filter_append, noString, List.nil_append, agrees.strings],
    by rw [List.filter_append, noComment, List.nil_append, agrees.comments]⟩

theorem Agrees.token {pieces : List Piece} {token : Token} {tokens : List Token}
    {comments : List (Nat × List Char)} {source : List Char} (notString : token.kind ≠ .string)
    (agrees : Agrees pieces tokens comments source) :
    Agrees pieces (token :: tokens) comments source := by
  have nothing : ofString? token = none := if_neg notString
  exact ⟨by rw [List.filterMap_cons_none nothing, agrees.strings], agrees.comments⟩

/-! ## The walk beside the tokens -/

section Walk

variable {before front rest source : List Char} {skip : Nat} {tokens : List Token}
variable {comments : List (Nat × List Char)}

theorem offset_between {here : Position} (isHere : here = Position.start.afterAll before)
    (there : Position) :
    (Span.between here there).offset = (before.length : Int) := by
  rw [isHere, Position.afterAll_start]
  rfl

/-- A calm stretch without strings and comments. -/
theorem Agrees.calm {holds : Tint → Prop} (calm : Calm holds front rest)
    (quiet : ∀ tint, holds tint → tint.isQuiet = true) (faint : Faint skip (front ++ rest))
    (further : ∀ left, Faint left rest →
      Agrees (onward (before ++ front) left rest) tokens comments source) :
    Agrees (onward before skip (front ++ rest)) tokens comments source := by
  obtain ⟨own, left, same, isFaint, inside⟩ := calm.walk before skip faint.behind
  rw [same]
  exact .append (fun piece member => quiet _ (inside piece member).1) (further left isFaint)

theorem onward_string {quote : Char} (before : List Char)
    (isQuote : quote = '\x22' ∨ quote = '\x27') (free : quote ∉ body)
    (faint : Faint skip (quote :: (body ++ [quote]) ++ rest)) :
    onward before skip (quote :: (body ++ [quote]) ++ rest) =
      ⟨before.length, if quote = '\x22' then .doubleString else .singleString,
          quote :: (body ++ [quote])⟩ ::
        onward (before ++ quote :: (body ++ [quote])) 0 rest := by
  have strong : isFaint quote = false := by
    rcases isQuote with rfl | rfl <;> decide
  rw [faint.eq_zero strong]
  exact onward_piece (List.cons_ne_nil _ _) (first_string isQuote free before.getLast? rest)

theorem Agrees.string {quote : Char} {span : Span} (isQuote : quote = '\x22' ∨ quote = '\x27')
    (free : quote ∉ body) (offset : span.offset = (before.length : Int))
    (faint : Faint skip (quote :: (body ++ [quote]) ++ rest))
    (further : Agrees (onward (before ++ quote :: (body ++ [quote])) 0 rest) tokens comments source) :
    Agrees (onward before skip (quote :: (body ++ [quote]) ++ rest))
      (⟨.string, String.ofList body, String.ofList [quote], span⟩ :: tokens) comments source := by
  rw [onward_string before isQuote free faint]
  have piece : ofString? ⟨.string, String.ofList body, String.ofList [quote], span⟩ =
      some ⟨before.length, if quote = '\x22' then .doubleString else .singleString,
        quote :: (body ++ [quote])⟩ := by
    unfold ofString?
    rw [if_pos rfl, offset, Int.toNat_natCast, String.toList_ofList, String.toList_ofList]
    rcases isQuote with rfl | rfl <;> rfl
  refine ⟨?_, ?_⟩
  · rw [List.filterMap_cons_some piece, ← further.strings]
    rcases isQuote with rfl | rfl <;> rfl
  · rw [← further.comments]
    rcases isQuote with rfl | rfl <;> rfl

/-- A comment is one piece, with the carriage return behind it if there is one. -/
theorem onward_comment (before : List Char) (isComment : Comment body rest) :
    ∃ left, Faint left rest ∧ onward before 0 ('#' :: body ++ rest) =
      ofComment (before ++ ('#' :: body ++ rest)) (before.length, '#' :: body) ::
        onward (before ++ '#' :: body) left rest := by
  have plain : ∀ c ∈ body, (c != '\n') = true := by
    intro c member
    rw [bne_iff_ne]
    rintro rfl
    exact isComment.noFeed member
  have behind : (before ++ ('#' :: body ++ rest)).drop (before.length + ('#' :: body).length) =
      rest := by
    rw [← List.append_assoc, ← List.length_append, List.drop_left]
  have taken := first_comment before.getLast? (body ++ rest)
  rw [List.takeWhile_append_of_pos plain, ← List.cons_append] at taken
  unfold ofComment
  dsimp only
  rw [behind]
  have ends : rest = [] ∨ (∃ more, rest = '\n' :: more) ∨ ∃ more, rest = '\r' :: '\n' :: more := by
    rcases isComment.ends with empty | isBreak
    · exact .inl empty
    · unfold startsBreak at isBreak
      split at isBreak
      · exact .inr (.inl ⟨_, rfl⟩)
      · exact .inr (.inr ⟨_, rfl⟩)
      · contradiction
  rcases ends with rfl | ⟨more, rfl⟩ | ⟨more, rfl⟩
  · refine ⟨0, by simp [Faint], ?_⟩
    rw [onward_piece (List.cons_ne_nil _ _) (by simpa using taken)]
    simp
  · refine ⟨0, by simp [Faint], ?_⟩
    rw [onward_piece (List.cons_ne_nil _ _) (by simpa using taken)]
    simp
  · refine ⟨1, by simp [Faint]; decide, ?_⟩
    have text : '#' :: body ++ '\r' :: '\n' :: more = '#' :: (body ++ ['\r']) ++ '\n' :: more := by
      simp
    have whole : first before.getLast? ('#' :: (body ++ ['\r']) ++ '\n' :: more) =
        (.comment, ('#' :: (body ++ ['\r'])).length) := by
      rw [← text, taken]
      rfl
    rw [text, onward_piece (List.cons_ne_nil _ _) whole, onward_skip]
    simp [List.isPrefixOf]

theorem Agrees.comment (isComment : Comment body rest) (faint : Faint skip ('#' :: body ++ rest))
    (further : ∀ left, Faint left rest →
      Agrees (onward (before ++ '#' :: body) left rest) tokens comments
        (before ++ ('#' :: body ++ rest))) :
    Agrees (onward before skip ('#' :: body ++ rest)) tokens
      ((before.length, '#' :: body) :: comments) (before ++ ('#' :: body ++ rest)) := by
  obtain ⟨left, isFaint, same⟩ := onward_comment before isComment
  have agrees := further left isFaint
  rw [faint.eq_zero rfl, same]
  refine ⟨?_, ?_⟩
  · rw [← agrees.strings]
    rfl
  · rw [List.map_cons, ← agrees.comments]
    rfl

end Walk

/-- The pieces of strings and comments are those of the tokens, from every place on where a token
ends or a text begins. -/
theorem agrees_readOn (last : Option Kind) (before text : List Char) {span : Span}
    (finished : (Reading.readOn last (Position.start.afterAll before) 0 text).ending =
      .finished span) :
    Agrees (onward before 0 text)
      (Reading.readOn last (Position.start.afterAll before) 0 text).tokens
      (Reading.commentsOn last before.length 0 text) (before ++ text) := by
  have read := Reading.readOn_byPieces last (Position.start.afterAll before) text
  generalize Reading.readOn last (Position.start.afterAll before) 0 text = reading
    at read finished ⊢
  generalize isHere : Position.start.afterAll before = here at read
  -- A piece may still run on where a token ends, so the invariant holds for every number of faint
  -- characters to skip.
  suffices invariant : ∀ skip, Faint skip text → Agrees (onward before skip text) reading.tokens
      (Reading.commentsOn last before.length 0 text) (before ++ text) from
    invariant 0 (by simp [Faint])
  induction read generalizing before with
  | ended =>
    intro skip _
    rw [onward_nil]
    refine ⟨?_, rfl⟩
    unfold Reading.close
    split <;> rfl
  | fault => cases finished
  | @gap last here first front rest reading read cuts _ agrees =>
    intro skip faint
    have further := agrees (before ++ first :: front) finished
      (by rw [← isHere, Position.afterAll_append])
    rw [List.length_append, List.append_assoc] at further
    rw [Reading.commentsOn_gap read]
    generalize (first :: front).length = width at cuts further ⊢
    cases cuts with
    | space =>
      exact .calm (calm_blanks (by simp; decide) rest) (fun tint same => by rw [same]; rfl) faint
        further
    | comment isComment => exact .comment isComment faint further
  | @lineBreak last here first front rest reading read cuts _ agrees =>
    intro skip faint
    have further := agrees (before ++ first :: front) finished
      (by rw [← isHere, Position.afterAll_append])
    rw [List.length_append, List.append_assoc] at further
    rw [Reading.commentsOn_lineBreak read]
    have areBlank : ∀ c ∈ first :: front, Text.isBlank c = true := by
      generalize (first :: front).length = width at cuts
      cases cuts with
      | feed | returnFeed => simp; decide
    exact .token (by simp) (.calm (calm_blanks areBlank rest) (fun tint same => by rw [same]; rfl)
      faint further)
  | @word last here word first front rest reading read spelled _ agrees =>
    intro skip faint
    have further := agrees (before ++ first :: front) finished
      (by rw [← isHere, Position.afterAll_append])
    rw [List.length_append, List.append_assoc] at further
    rw [Reading.commentsOn_word read]
    by_cases isString : word.kind = .string
    · have offset := offset_between isHere.symm (here.afterAll (first :: front))
      generalize same : first :: front = spelling at spelled faint further offset ⊢
      cases spelled with
      | string isQuote free =>
        exact .string isQuote free offset faint (further 0 (by simp [Faint]))
      | word => exact absurd isString (Kind.ofWord_ne _).2.1
      | number | symbol => contradiction
    · obtain ⟨own, left, same, isFaint, inside⟩ := walk_of_spelled read spelled isString before faint
      rw [same]
      exact .token isString (.append (fun piece member => (inside piece member).1.1)
        (further left isFaint))

/-- The pieces of a text are not empty, follow each other and make up the text. If the text is read
without a fault, the pieces of strings are its string tokens, and the pieces of comments are the
comments between its tokens, with the carriage return of a line break behind them. -/
theorem pieces_agree (source : String) :
    ((pieces source).map Piece.text).flatten = source.toList ∧ Adjoin 0 (pieces source) ∧
      ∀ span, (Reading.ofText source).ending = .finished span →
        Agrees (pieces source) (Reading.ofText source).tokens (Reading.comments source)
          source.toList := by
  obtain ⟨whole, adjoin⟩ := onward_tiles [] source.toList
  refine ⟨whole, adjoin, fun span finished => ?_⟩
  exact agrees_readOn none [] source.toList finished

/-- A number sign in a string, quotes in comments, a sign, a name with a letter that no rule knows,
and a point behind it. -/
theorem pieces_agree_on_quotes :
    ∃ span, (Reading.ofText "é1.a='#'# \x22\r\n-1.5 #'").ending = .finished span ∧
      (pieces "é1.a='#'# \x22\r\n-1.5 #'").filter (·.tint.isString) =
        [⟨5, .singleString, ['\x27', '#', '\x27']⟩] ∧
      (pieces "é1.a='#'# \x22\r\n-1.5 #'").filter (·.tint == .comment) =
        [⟨8, .comment, ['#', ' ', '\x22', '\r']⟩, ⟨18, .comment, ['#', '\x27']⟩] := by
  have finished : (Reading.ofText "é1.a='#'# \x22\r\n-1.5 #'").ending =
      .finished (.point ⟨2, 8, 20⟩) := by decide +kernel
  have agrees := (pieces_agree "é1.a='#'# \x22\r\n-1.5 #'").2.2 _ finished
  refine ⟨_, finished, agrees.strings.trans ?_, agrees.comments.trans ?_⟩
  · decide +kernel
  · decide +kernel

end Tint

end Parlance
