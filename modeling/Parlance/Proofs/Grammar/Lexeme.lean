import Parlance.Grammar.Cursor

/-!
Contract: tokens without their places.

What a row of tokens means does not depend on where the tokens stand. Owns: the part of a token that
the grammar can see (`Lexeme`), the lexemes that a cursor has before it, and the kind of the token
that a parser finds next. Behind the last token of a row it finds the end of the input.
-/

namespace Parlance

/-- What the grammar sees of a token: all but its place. -/
structure Lexeme where
  kind : Kind
  text : String
  quote : String
deriving DecidableEq, Repr

def Token.lexeme (token : Token) : Lexeme :=
  ⟨token.kind, token.text, token.quote⟩

@[simp] theorem Token.lexeme_kind (token : Token) : token.lexeme.kind = token.kind := rfl

@[simp] theorem Token.lexeme_text (token : Token) : token.lexeme.text = token.text := rfl

@[simp] theorem Token.lexeme_quote (token : Token) : token.lexeme.quote = token.quote := rfl

namespace Lexeme

/-- The kind of the first lexeme of a row, or else of what stands behind the row. -/
def leading (behind : Kind) : List Lexeme → Kind
  | [] => behind
  | first :: _ => first.kind

@[simp] theorem leading_nil (behind : Kind) : leading behind [] = behind := rfl

@[simp] theorem leading_cons (behind : Kind) (first : Lexeme) (rest : List Lexeme) :
    leading behind (first :: rest) = first.kind := rfl

@[simp] theorem leading_append (behind : Kind) (front back : List Lexeme) :
    leading behind (front ++ back) = leading (leading behind back) front := by
  cases front <;> rfl

def Breaks (words : List Lexeme) : Prop :=
  ∀ word ∈ words, word.kind = .newline

theorem Breaks.nil : Breaks [] := by
  intro word member
  cases member

theorem Breaks.append {front back : List Lexeme} (before : Breaks front) (after : Breaks back) :
    Breaks (front ++ back) := by
  intro word member
  rcases List.mem_append.mp member with member | member
  · exact before word member
  · exact after word member

theorem Breaks.right {front back : List Lexeme} (breaks : Breaks (front ++ back)) : Breaks back :=
  fun word member => breaks word (List.mem_append_right front member)

end Lexeme

namespace Cursor

def words (here : Cursor) : List Lexeme :=
  here.tokens.map Token.lexeme

/-- The kind of the next token, or of the end of the input. -/
def kind (here : Cursor) : Kind :=
  Lexeme.leading .endOfInput here.words

/-- The kind at a place is that of the words up to a later place, if there are any. -/
theorem leading_of_words {here next : Cursor} {words : List Lexeme}
    (same : here.words = words ++ next.words) :
    Lexeme.leading next.kind words = here.kind := by
  simp only [kind, same, Lexeme.leading_append]

theorem words_of_tokens {here : Cursor} {token : Token} {rest : List Token}
    (tokens : here.tokens = token :: rest) :
    here.words = token.lexeme :: rest.map Token.lexeme := by
  simp [words, tokens]

/-- A cursor that can look at its place sees a token of the cursor's kind. -/
theorem kind_of_peek {here : Cursor} {token : Token} (seen : here.peek = .ok token) :
    token.kind = here.kind := by
  cases tokens : here.tokens with
  | cons first rest =>
    simp only [peek, tokens, Except.ok.injEq] at seen
    simp [kind, words_of_tokens tokens, seen]
  | nil =>
    cases ending : here.ending with
    | broken failure => simp [peek, tokens, atEnd, ending] at seen
    | finished span =>
      simp only [peek, tokens, atEnd, ending, Except.ok.injEq] at seen
      simp [kind, words, tokens, ← seen, Token.endOfInput]

/-- A row of tokens that ends properly can be looked at everywhere. -/
theorem peek_of_finished {here : Cursor} {span : Span} (ending : here.ending = .finished span) :
    ∃ token, here.peek = .ok token := by
  cases tokens : here.tokens with
  | cons first rest => exact ⟨first, by simp [peek, tokens]⟩
  | nil => exact ⟨.endOfInput span, by simp [peek, tokens, atEnd, ending]⟩

end Cursor

end Parlance
