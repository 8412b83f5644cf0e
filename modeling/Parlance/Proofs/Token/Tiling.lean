import Mathlib.Data.List.Induction
import Parlance.Proofs.Token.Spelling

/-!
Contract: the tokens of a text tile it, and each stands where its span says.

A text is the spellings of its tokens with gaps before, between and behind them. A gap holds spaces
and comments. Owns: the lines and columns of a text, counted from its start alone, the tiling of a
text by tokens (`Tiled`), and the theorem that the reading of a text tiles it up to its end or its
first fault.
-/

namespace Parlance

/-! ## Places -/

/-- The line of what stands behind a text: line feeds are counted. -/
def lineAt (before : List Char) : Nat :=
  1 + before.count '\n'

/-- The column of what stands behind a text: characters behind the last line feed are counted. -/
def columnAt (before : List Char) : Nat :=
  1 + (before.reverse.takeWhile (· != '\n')).length

/-- The place reached by reading a text is told by counting in it. -/
theorem Position.afterAll_start (before : List Char) :
    Position.start.afterAll before = ⟨lineAt before, columnAt before, before.length⟩ := by
  induction before using List.reverseRecOn with
  | nil => rfl
  | append_singleton before c ih =>
    rw [afterAll_append, ih, afterAll_cons, afterAll_nil, after]
    by_cases feed : c = '\n'
    · subst feed
      simp [lineAt, columnAt, List.count_append, Nat.add_assoc]
    · simp [lineAt, columnAt, List.count_append, feed, Nat.add_comm]

/-! ## Gaps and spellings -/

/-- Spaces and comments before the rest of a text. -/
inductive Gap : List Char → List Char → Prop where
  | none {rest : List Char} :
      Gap [] rest
  | space {gap rest : List Char} (more : Gap gap rest) :
      Gap (' ' :: gap) rest
  | comment {body gap rest : List Char} (isComment : Comment body (gap ++ rest))
      (more : Gap gap rest) :
      Gap ('#' :: (body ++ gap)) rest

theorem Gap.append {front back rest : List Char} (first : Gap front (back ++ rest))
    (second : Gap back rest) :
    Gap (front ++ back) rest := by
  generalize behind : back ++ rest = all at first
  induction first with
  | none => exact second
  | space more ih => exact .space (ih behind)
  | comment isComment more ih =>
    subst behind
    rw [List.cons_append, List.append_assoc]
    exact .comment (by rw [List.append_assoc]; exact isComment) (ih rfl)

theorem Piece.Cuts.gap {width : Nat} {text rest : List Char}
    (cuts : (Piece.gap width).Cuts text rest) :
    Gap text rest := by
  cases cuts with
  | space => exact .space .none
  | comment isComment =>
    rename_i body
    rw [← List.append_nil body]
    exact .comment isComment .none

/-- The characters of a token in its text. A line break may be written with two characters. The
end of the input has none, nor has the line break that closes a last line. -/
inductive Token.Spells (token : Token) : List Char → Prop where
  | string (isString : token.kind = .string) :
      Token.Spells token (token.quote.toList ++ (token.text.toList ++ token.quote.toList))
  | feed (isBreak : token.kind = .newline) (isRead : token.text = "\n") :
      Token.Spells token ['\n']
  | returnFeed (isBreak : token.kind = .newline) (isRead : token.text = "\n") :
      Token.Spells token ['\r', '\n']
  | closing (isBreak : token.kind = .newline) (isAdded : token.text = "") :
      Token.Spells token []
  | ended (isOver : token.kind = .endOfInput) :
      Token.Spells token []
  | plain (notString : token.kind ≠ .string) (notBreak : token.kind ≠ .newline)
      (notOver : token.kind ≠ .endOfInput) :
      Token.Spells token token.text.toList

/-- The span of a token tells where its spelling stands behind a text. -/
structure Token.At (token : Token) (before spelling : List Char) : Prop where
  offset : token.span.offset = (before.length : Int)
  startLine : token.span.startLine = (lineAt before : Int)
  startColumn : token.span.startColumn = (columnAt before : Int)
  /-- A token that is no line break and not the end of the input ends with its last character. -/
  ending : token.kind ≠ .newline → token.kind ≠ .endOfInput →
    ∃ front last, spelling = front ++ [last] ∧
      token.span.endLine = (lineAt (before ++ front) : Int) ∧
        token.span.endColumn = (columnAt (before ++ front) : Int)

/-- Behind `before` and before `rest`, a text is made of gaps and of the tokens' spellings, each
where its token's span says. -/
inductive Tiled : List Char → List Token → List Char → List Char → Prop where
  | gap {before gap rest : List Char} (isGap : Gap gap rest) :
      Tiled before [] gap rest
  | token {before gap spelling text rest : List Char} {token : Token} {tokens : List Token}
      (isGap : Gap gap (spelling ++ (text ++ rest))) (spells : token.Spells spelling)
      (placed : token.At (before ++ gap) spelling)
      (more : Tiled (before ++ (gap ++ spelling)) tokens text rest) :
      Tiled before (token :: tokens) (gap ++ (spelling ++ text)) rest

theorem Tiled.indent {before gap text rest : List Char} {tokens : List Token}
    (isGap : Gap gap (text ++ rest)) (tiled : Tiled (before ++ gap) tokens text rest) :
    Tiled before tokens (gap ++ text) rest := by
  cases tiled with
  | gap more => exact .gap (isGap.append more)
  | token more spells placed others =>
    rename_i inner spelling text token tokens
    have whole : Gap (gap ++ inner) (spelling ++ (text ++ rest)) :=
      Gap.append (by simpa using isGap) more
    rw [← List.append_assoc gap]
    refine .token whole spells ?_ ?_
    · simpa using placed
    · simpa using others

/-! ## Readings -/

/-- A token that has characters of its own in the text. -/
structure Token.IsRead (token : Token) : Prop where
  notOver : token.kind ≠ .endOfInput
  notAdded : token.kind = .newline → token.text ≠ ""

/-- How a stream of tokens ends behind a token of the kind `last`, if there is one: with one token
for the end of the input, at the end of the text, and with a line break before it unless no token
stands there. All tokens before this line break are read from the text. -/
def Closed (last : Option Kind) (tokens : List Token) (length : Nat) : Prop :=
  ∃ body stop, tokens = body ++ [stop] ∧ stop.kind = .endOfInput ∧
    stop.span.offset = (length : Int) ∧
    (∀ token ∈ body, token.kind ≠ .endOfInput) ∧
    (∀ kind, (body.getLast?.map Token.kind).or last = some kind → kind = .newline) ∧
    ∀ front token back, body = front ++ token :: back → back ≠ [] → token.IsRead

/-- What the reading of a text says about the text, which stands behind `before` and behind a token
of the kind `last`, if there is one. -/
def Reading.Tells (reading : Reading) (last : Option Kind) (before text : List Char) : Prop :=
  match reading.ending with
  | .finished _ =>
    Tiled before reading.allTokens text [] ∧ Closed last reading.allTokens (before ++ text).length
  | .broken failure =>
    ∃ front rest, text = front ++ rest ∧ failure.span.offset = ((before ++ front).length : Int) ∧
      Tiled before reading.allTokens front rest ∧ ∀ token ∈ reading.allTokens, token.IsRead

theorem Closed.cons {last : Option Kind} {token : Token} {tokens : List Token} {length : Nat}
    (isRead : token.IsRead) (closed : Closed (some token.kind) tokens length) :
    Closed last (token :: tokens) length := by
  obtain ⟨body, stop, rfl, isStop, offset, inside, lineEnd, others⟩ := closed
  refine ⟨token :: body, stop, rfl, isStop, offset, ?_, ?_, ?_⟩
  · intro other member
    rcases List.mem_cons.mp member with rfl | member
    · exact isRead.notOver
    · exact inside other member
  · intro kind isLast
    refine lineEnd kind ?_
    cases body with
    | nil => simpa using isLast
    | cons first body =>
      have final := List.getLast?_eq_some_getLast (List.cons_ne_nil first body)
      rw [List.getLast?_cons_cons, final] at isLast
      rw [final]
      exact isLast
  · rintro (_ | ⟨first, front⟩) other back same filled
    · obtain ⟨rfl, -⟩ := List.cons.inj same
      exact isRead
    · exact others front other back (List.cons.inj same).2 filled

@[simp] theorem Reading.allTokens_cons (token : Token) (reading : Reading) :
    (Reading.cons token reading).allTokens = token :: reading.allTokens := by
  unfold Reading.allTokens Reading.cons
  cases reading.ending <;> rfl

theorem Reading.Tells.cons {reading : Reading} {last : Option Kind}
    {before spelling text : List Char} {token : Token} (spells : token.Spells spelling)
    (placed : token.At before spelling) (isRead : token.IsRead)
    (tells : reading.Tells (some token.kind) (before ++ spelling) text) :
    (Reading.cons token reading).Tells last before (spelling ++ text) := by
  have first : ∀ {tokens : List Token} {text rest : List Char},
      Tiled (before ++ spelling) tokens text rest →
        Tiled before (token :: tokens) (spelling ++ text) rest :=
    fun tiled => .token .none spells (by simpa using placed) (by simpa using tiled)
  unfold Reading.Tells at tells ⊢
  rw [show (Reading.cons token reading).ending = reading.ending from rfl, Reading.allTokens_cons]
  cases ending : reading.ending with
  | finished span =>
    rw [ending] at tells
    refine ⟨first tells.1, ?_⟩
    rw [← List.append_assoc]
    exact .cons isRead tells.2
  | broken failure =>
    rw [ending] at tells
    obtain ⟨front, rest, rfl, offset, tiled, areRead⟩ := tells
    exact ⟨spelling ++ front, rest, by rw [List.append_assoc], by rw [offset, List.append_assoc],
      first tiled, List.forall_mem_cons.mpr ⟨isRead, areRead⟩⟩

theorem Reading.Tells.indent {reading : Reading} {last : Option Kind} {before gap text : List Char}
    (isGap : Gap gap text) (tells : reading.Tells last (before ++ gap) text) :
    reading.Tells last before (gap ++ text) := by
  unfold Reading.Tells at tells ⊢
  cases ending : reading.ending with
  | finished span =>
    rw [ending] at tells
    refine ⟨.indent (by rwa [List.append_nil]) tells.1, ?_⟩
    rw [← List.append_assoc]
    exact tells.2
  | broken failure =>
    rw [ending] at tells
    obtain ⟨front, rest, rfl, offset, tiled, areRead⟩ := tells
    exact ⟨gap ++ front, rest, by rw [List.append_assoc], by rw [offset, List.append_assoc],
      .indent isGap tiled, areRead⟩

theorem Reading.close_tells (last : Option Kind) (before : List Char) :
    (Reading.close last (Position.start.afterAll before)).Tells last before [] := by
  have stop : ∀ token : Token, token.kind = .endOfInput ∨ token.kind = .newline →
      token.span = .point (Position.start.afterAll before) → token.At before [] := by
    intro token isStop span
    rw [Position.afterAll_start] at span
    refine ⟨by rw [span]; rfl, by rw [span]; rfl, by rw [span]; rfl, ?_⟩
    intro notBreak notOver
    rcases isStop with isOver | isBreak
    · exact absurd isOver notOver
    · exact absurd isBreak notBreak
  have ended : Tiled before [.endOfInput (.point (Position.start.afterAll before))] [] [] :=
    .token .none (.ended rfl) (by simpa using stop _ (.inl rfl) rfl) (.gap .none)
  have place : (Span.point (Position.start.afterAll before)).offset =
      ((before ++ []).length : Int) := by
    rw [Position.afterAll_start, List.append_nil]
    rfl
  by_cases isClosed : ∀ kind, last = some kind → kind = .newline
  · have nothing : Reading.close last (Position.start.afterAll before) =
        ⟨[], .finished (.point (Position.start.afterAll before))⟩ := by
      match last with
      | none => rfl
      | some kind => rw [isClosed kind rfl]; rfl
    rw [nothing]
    exact ⟨ended, [], _, rfl, rfl, place, by simp, by simpa using isClosed, by simp⟩
  · have added : Reading.close last (Position.start.afterAll before) =
        ⟨[⟨.newline, "", "", .point (Position.start.afterAll before)⟩],
          .finished (.point (Position.start.afterAll before))⟩ := by
      unfold Reading.close
      split
      · simp at isClosed
      · simp at isClosed
      · rfl
    rw [added]
    refine ⟨?_, [_], _, rfl, rfl, place, by simp, by simp, ?_⟩
    · refine .token .none (.closing rfl rfl) (by simpa using stop _ (.inr rfl) rfl) ?_
      simpa using ended
    · rintro (_ | ⟨first, front⟩) token back same filled
      · exact absurd (List.cons.inj same).2.symm filled
      · simp at same

/-- A span up to behind a character that is no line feed ends with that character. -/
theorem Span.ends_between {c : Char} (noFeed : c ≠ '\n') (first : Position) (before : List Char) :
    (Span.between first (Position.start.afterAll (before ++ [c]))).endLine =
        (lineAt before : Int) ∧
      (Span.between first (Position.start.afterAll (before ++ [c]))).endColumn =
        (columnAt before : Int) := by
  have behind : Position.start.afterAll (before ++ [c]) =
      ⟨lineAt before, columnAt before + 1, before.length + 1⟩ := by
    rw [Position.afterAll_append, Position.afterAll_start, Position.afterAll_cons,
      Position.afterAll_nil, Position.after, if_neg (by simpa using noFeed)]
  rw [behind]
  refine ⟨rfl, ?_⟩
  have inside : columnAt before + 1 > 1 := by
    unfold columnAt
    omega
  simp only [Span.between, if_pos inside]
  omega

/-- A word stands where its span says: it ends with its last character, which is no line feed. -/
theorem Token.at_of_spelled {word : Lexeme} {before spelling : List Char}
    (spelled : word.Spelled spelling) :
    Token.At ⟨word.kind, word.text, word.quote,
      .between (Position.start.afterAll before) (Position.start.afterAll (before ++ spelling))⟩
      before spelling := by
  obtain ⟨front, c, rfl, noFeed⟩ := spelled.ends
  have ends := Span.ends_between noFeed (Position.start.afterAll before) (before ++ front)
  rw [List.append_assoc] at ends
  rw [Position.afterAll_start before] at ends ⊢
  exact ⟨rfl, rfl, rfl, fun _ _ => ⟨front, c, rfl, ends.1, ends.2⟩⟩

theorem Token.spells_of_spelled {word : Lexeme} {spelling : List Char} (span : Span)
    (spelled : word.Spelled spelling) :
    Token.Spells ⟨word.kind, word.text, word.quote, span⟩ spelling := by
  cases spelled with
  | word starts continues =>
    rename_i first more
    obtain ⟨-, notString, notBreak, notOver⟩ := Kind.ofWord_ne (String.ofList (first :: more))
    have spells : Token.Spells
        ⟨Kind.ofWord (String.ofList (first :: more)), String.ofList (first :: more), "", span⟩
        (String.ofList (first :: more)).toList := .plain notString notBreak notOver
    rwa [String.toList_ofList] at spells
  | number isSign numeral =>
    rename_i sign text
    have spells : Token.Spells ⟨.number, String.ofList (sign ++ text), "", span⟩
        (String.ofList (sign ++ text)).toList := .plain (by simp) (by simp) (by simp)
    rwa [String.toList_ofList] at spells
  | string isQuote free =>
    rename_i quote body
    have spells : Token.Spells ⟨.string, String.ofList body, String.ofList [quote], span⟩
        ((String.ofList [quote]).toList ++
          ((String.ofList body).toList ++ (String.ofList [quote]).toList)) := .string rfl
    simpa only [String.toList_ofList, List.singleton_append] using spells
  | symbol mark => exact .plain (by simp) (by simp) (by simp)

/-- The tokens of a text tile it up to its end or its first fault. Each stands at the offset, line
and column that its span says, and behind the last of them nothing but a gap is left. -/
theorem Reading.ofText_tiles (source : String) :
    (Reading.ofText source).Tells none [] source.toList := by
  have read := Reading.readOn_induction
    (motive := fun last here text reading =>
      ∀ before, here = Position.start.afterAll before → reading.Tells last before text)
    ?ended ?fault ?gap ?lineBreak ?word none .start source.toList
  · exact read [] rfl
  case ended =>
    rintro last _ before rfl
    exact close_tells last before
  case fault =>
    rintro last _ text cause before rfl
    refine ⟨[], text, rfl, ?_, .gap .none, List.forall_mem_nil _⟩
    rw [Position.afterAll_start, List.append_nil]
    rfl
  case gap =>
    rintro last _ text rest reading cuts tells before rfl
    exact .indent cuts.gap (tells _ (Position.afterAll_append _ _ _).symm)
  case lineBreak =>
    rintro last _ text rest reading cuts tells before rfl
    have placed : Token.At ⟨.newline, "\n", "", .point (Position.start.afterAll before)⟩
        before text := by
      rw [Position.afterAll_start]
      exact ⟨rfl, rfl, rfl, fun notBreak => absurd rfl notBreak⟩
    have spells : Token.Spells ⟨.newline, "\n", "", .point (Position.start.afterAll before)⟩
        text := by
      generalize text.length = width at cuts
      cases cuts with
      | feed => exact .feed rfl rfl
      | returnFeed => exact .returnFeed rfl rfl
    exact .cons spells placed ⟨by simp, by simp⟩ (tells _ (Position.afterAll_append _ _ _).symm)
  case word =>
    rintro last _ word text rest reading spelled tells before rfl
    rw [← Position.afterAll_append]
    obtain ⟨notBreak, notOver⟩ := spelled.kind_ne
    exact .cons (Token.spells_of_spelled _ spelled) (Token.at_of_spelled spelled)
      ⟨notOver, fun isBreak => absurd isBreak notBreak⟩
      (tells _ (Position.afterAll_append _ _ _).symm)

end Parlance
