import Parlance.Proofs.Grammar.Lexeme
import Parlance.Grammar.Items

/-!
Contract: what a parser is sure to give on a row of words.

`parser.Delivers words rest post` says that the parser, before the words and then the rest, takes
exactly the words and gives a value with the property `post`. Owns: this judgement and one rule for
each of the steps that parsers are made of. The rest is in view because a parser may look at the
word behind what it takes; nothing else about the rest matters.

The rules for loops are stated with the words of the rounds still to come, so what is known of a
loop can be handed to the phrase that the loop belongs to.
-/

namespace Parlance.Parser

open Lexeme

variable {α β γ : Type}
variable {rest words front : List Lexeme} {post : β → Prop} {word : Lexeme} {kind : Kind}
variable {first : Parser α} {second : α → Parser β} {middle : α → Prop} {select : Token → Option γ}
variable {body : β → γ → Parser β} {value : β}

/-- Parsers that do the same everywhere are equal. -/
theorem eq_of_run_eq {left right : Parser α} (same : ∀ here, left.run here = right.run here) :
    left = right := by
  cases left
  cases right
  congr
  exact funext same

instance: LawfulMonad Parser :=
  LawfulMonad.mk' Parser
    (fun parser => eq_of_run_eq fun here => by
      change (parser >>= fun value => pure value).run here = parser.run here
      rw [run_bind]
      cases parser.run here <;> rfl)
    (fun value next => eq_of_run_eq fun here => rfl)
    (fun first second third => eq_of_run_eq fun here => by
      rw [run_bind, run_bind, run_bind]
      cases first.run here <;> rfl)

/-- Before `words` and then `rest`, the parser takes the words and gives a value as described. -/
def Delivers (parser : Parser α) (words rest : List Lexeme) (post : α → Prop) : Prop :=
  ∀ here span,
    here.ending = .finished span → here.words = words ++ rest →
      ∃ value next, parser.run here = .ok (value, next) ∧ next.words = rest ∧ post value

theorem Delivers.weaken {parser : Parser α} {post weaker : α → Prop}
    (delivers : parser.Delivers words rest post) (implies : ∀ value, post value → weaker value) :
    parser.Delivers words rest weaker := by
  intro here span ending before
  obtain ⟨value, next, run, after, holds⟩ := delivers here span ending before
  exact ⟨value, next, run, after, implies value holds⟩

theorem Delivers.pure {value : α} {post : α → Prop} (holds : post value) :
    (pure value : Parser α).Delivers [] rest post := by
  intro here span ending before
  exact ⟨value, here, run_pure value here, by simpa using before, holds⟩

theorem Delivers.bind {back : List Lexeme}
    (firstDelivers : first.Delivers front (back ++ rest) middle)
    (secondDelivers : ∀ value, middle value → (second value).Delivers back rest post) :
    (first >>= second).Delivers (front ++ back) rest post := by
  intro here span ending before
  obtain ⟨value, between, firstRun, betweenWords, holds⟩ :=
    firstDelivers here span ending (by simpa using before)
  have betweenEnding : between.ending = .finished span :=
    (first.leads here value between firstRun).ending.trans ending
  obtain ⟨result, next, secondRun, after, final⟩ :=
    secondDelivers value holds between span betweenEnding betweenWords
  exact ⟨result, next, by simp [run_bind, firstRun, secondRun], after, final⟩

/-- A first step that takes nothing leaves all words to the second. -/
theorem Delivers.bindLook (firstDelivers : first.Delivers [] (words ++ rest) middle)
    (secondDelivers : ∀ value, middle value → (second value).Delivers words rest post) :
    (first >>= second).Delivers words rest post :=
  Delivers.bind firstDelivers secondDelivers

/-- A last step that takes nothing leaves all words to the first. -/
theorem Delivers.bindLast (firstDelivers : first.Delivers words rest middle)
    (secondDelivers : ∀ value, middle value → (second value).Delivers [] rest post) :
    (first >>= second).Delivers words rest post := by
  have both : (first >>= second).Delivers (words ++ []) rest post :=
    Delivers.bind firstDelivers secondDelivers
  rwa [List.append_nil] at both

/-! ## Looking -/

/-- The next token is the first word, if there is one, and has its kind in any case. -/
theorem delivers_peek (rest : List Lexeme) :
    peek.Delivers [] rest fun token =>
      token.kind = leading .endOfInput rest ∧
        ∀ first others, rest = first :: others → token.lexeme = first := by
  intro here span ending before
  obtain ⟨token, seen⟩ := Cursor.peek_of_finished ending
  refine ⟨token, here, by simp [peek, look, seen], by simpa using before, ?_, ?_⟩
  · rw [Cursor.kind_of_peek seen, Cursor.kind, before, List.nil_append]
  · rintro first others rfl
    cases tokens : here.tokens with
    | nil => simp [Cursor.words, tokens] at before
    | cons head tail =>
      simp only [Cursor.words, tokens, List.map_cons, List.nil_append, List.cons.injEq] at before
      simp only [Cursor.peek, tokens, Except.ok.injEq] at seen
      rw [← seen, before.1]

theorem Delivers.bindPeek {second : Token → Parser β}
    (goesOn : ∀ token : Token, token.lexeme = word →
      (second token).Delivers (word :: words) rest post) :
    (peek >>= second).Delivers (word :: words) rest post :=
  (delivers_peek (word :: words ++ rest)).bindLook fun token seen =>
    goesOn token (seen.2 word (words ++ rest) rfl)

theorem Delivers.bindSeen {second : Token → Parser β} (isKind : word.kind = kind)
    (goesOn : ∀ token : Token, token.kind = kind →
      (second token).Delivers (word :: words) rest post) :
    (peek >>= second).Delivers (word :: words) rest post :=
  .bindPeek fun token same => goesOn token (by rw [← Token.lexeme_kind, same, isKind])

theorem Delivers.bindKind {second : Token → Parser β}
    (goesOn : ∀ token : Token, token.kind = leading .endOfInput (words ++ rest) →
      (second token).Delivers words rest post) :
    (peek >>= second).Delivers words rest post :=
  (delivers_peek (words ++ rest)).bindLook fun token seen => goesOn token seen.1

/-- The token behind the next one has the kind of the second word. -/
theorem delivers_peekSecond (rest : List Lexeme) :
    peekSecond.Delivers [] rest fun token => token.kind = leading .endOfInput rest.tail := by
  intro here span ending before
  rw [List.nil_append] at before
  subst before
  match tokens : here.tokens with
  | [] =>
    refine ⟨.endOfInput span, here, ?_, rfl, ?_⟩
    · simp [peekSecond, look, Cursor.peekSecond, Cursor.atEnd, tokens, ending]
    · simp [Cursor.words, tokens, Token.endOfInput]
  | [only] =>
    refine ⟨.endOfInput span, here, ?_, rfl, ?_⟩
    · simp [peekSecond, look, Cursor.peekSecond, Cursor.atEnd, tokens, ending]
    · simp [Cursor.words, tokens, Token.endOfInput]
  | first :: second :: others =>
    refine ⟨second, here, ?_, rfl, ?_⟩
    · simp [peekSecond, look, Cursor.peekSecond, tokens]
    · simp [Cursor.words, tokens]

theorem Delivers.bindSpan {start : Span} {second : Span → Parser β}
    (goesOn : ∀ span, (second span).Delivers words rest post) :
    (spanFrom start >>= second).Delivers words rest post :=
  fun here span ending before => goesOn (start.through here.last) here span ending before

theorem Delivers.bindNext {second : Bool → Parser β}
    (goesOn : (second (leading .endOfInput (words ++ rest) == kind)).Delivers words rest post) :
    (next kind >>= second).Delivers words rest post := by
  rw [next, bind_assoc]
  refine .bindKind fun token seen => ?_
  rw [pure_bind, seen]
  exact goesOn

/-! ## Taking -/

theorem delivers_take (word : Lexeme) (rest : List Lexeme) :
    take.Delivers [word] rest fun token => token.lexeme = word := by
  intro here span ending before
  cases tokens : here.tokens with
  | nil => simp [Cursor.words, tokens] at before
  | cons token others =>
    rw [Cursor.words_of_tokens tokens] at before
    simp only [List.cons_append, List.nil_append, List.cons.injEq] at before
    exact ⟨token, here.behind token others, by simp [take, tokens], before.2, before.1⟩

theorem Delivers.bindTake {second : Token → Parser β}
    (goesOn : ∀ token : Token, token.lexeme = word → (second token).Delivers words rest post) :
    (take >>= second).Delivers (word :: words) rest post :=
  (delivers_take word (words ++ rest)).bind goesOn

theorem Delivers.bindAccept {second : Bool → Parser β} (isKind : word.kind = kind)
    (goesOn : (second true).Delivers words rest post) :
    (accept kind >>= second).Delivers (word :: words) rest post := by
  rw [accept, bind_assoc]
  refine .bindNext ?_
  rw [List.cons_append, leading_cons, isKind, beq_self_eq_true, if_pos rfl, bind_assoc]
  exact .bindTake fun _ _ => goesOn

theorem Delivers.bindRefuse {second : Bool → Parser β}
    (other : leading .endOfInput (words ++ rest) ≠ kind)
    (goesOn : (second false).Delivers words rest post) :
    (accept kind >>= second).Delivers words rest post := by
  rw [accept, bind_assoc]
  refine .bindNext ?_
  rw [beq_eq_false_iff_ne.mpr other, if_neg Bool.false_ne_true, pure_bind]
  exact goesOn

theorem Delivers.bindExpect {wanted : Expectation} {second : Token → Parser β}
    (isKind : word.kind = kind)
    (goesOn : ∀ token : Token, token.lexeme = word → (second token).Delivers words rest post) :
    (expect kind wanted >>= second).Delivers (word :: words) rest post := by
  rw [expect, bind_assoc]
  refine .bindNext ?_
  rw [List.cons_append, leading_cons, isKind, beq_self_eq_true, if_pos rfl]
  exact .bindTake goesOn

/-! ## Loops -/

theorem delivers_foldWhile_stop
    (stops : ∀ token : Token, token.kind = leading .endOfInput rest → select token = none) :
    (foldWhile select body value).Delivers [] rest fun found => found = value := by
  intro here span ending before
  refine ⟨value, here, ?_, by simpa using before, rfl⟩
  rw [run_foldWhile]
  cases tokens : here.tokens with
  | nil => simp [Cursor.atEnd, ending]
  | cons token others =>
    rw [Cursor.words_of_tokens tokens, List.nil_append] at before
    have unselected : select token = none := stops token (by rw [← before]; rfl)
    simp [unselected]

/-- A loop that selects the next word takes it, does one round, starts again, and leaves the rest of
the words to whatever stands behind the loop. -/
theorem delivers_foldWhile_enter {behind : β → Parser α} {post : α → Prop}
    (round : ∀ token : Token, token.lexeme = word →
      ∃ choice, select token = some choice ∧
        (body value choice >>= fun value =>
          foldWhile select body value >>= behind).Delivers words rest post) :
    (foldWhile select body value >>= behind).Delivers (word :: words) rest post := by
  intro here span ending before
  cases tokens : here.tokens with
  | nil => simp [Cursor.words, tokens] at before
  | cons token others =>
    rw [Cursor.words_of_tokens tokens] at before
    simp only [List.cons_append, List.cons.injEq] at before
    obtain ⟨choice, selected, delivers⟩ := round token before.1
    obtain ⟨result, next, run, after, final⟩ :=
      delivers (here.behind token others) span ending before.2
    refine ⟨result, next, ?_, after, final⟩
    rw [run_bind, run_foldWhile]
    rw [run_bind] at run
    cases bodyRun : (body value choice).run (here.behind token others) with
    | error failure => simp [bodyRun] at run
    | ok reply => simpa [tokens, selected, bodyRun] using run

theorem delivers_foldWhile_round {back : List Lexeme} (middle : β → Prop)
    (round : ∀ token : Token, token.lexeme = word →
      ∃ choice, select token = some choice ∧
        (body value choice).Delivers front (back ++ rest) middle)
    (goesOn : ∀ value, middle value → (foldWhile select body value).Delivers back rest post) :
    (foldWhile select body value).Delivers (word :: (front ++ back)) rest post := by
  rw [← bind_pure (foldWhile select body value)]
  refine delivers_foldWhile_enter fun token same => ?_
  obtain ⟨choice, selected, delivers⟩ := round token same
  refine ⟨choice, selected, delivers.bind fun value holds => ?_⟩
  rw [bind_pure]
  exact goesOn value holds

theorem ofKind_eq_none {token : Token} (other : token.kind ≠ kind) : ofKind kind token = none := by
  simp [ofKind, other]

theorem ofKind_eq_some {token : Token} (same : token.kind = kind) :
    ofKind kind token = some token := by
  simp [ofKind, same]

section Kinds

variable {body : β → Token → Parser β}

/-- A loop over words of one kind stops before a word of another. -/
theorem delivers_whileKind_stop (other : leading .endOfInput rest ≠ kind) :
    (foldWhile (ofKind kind) body value).Delivers [] rest fun found => found = value :=
  delivers_foldWhile_stop fun _ seen => ofKind_eq_none (seen ▸ other)

theorem delivers_whileKind_enter {behind : β → Parser α} {post : α → Prop}
    (isKind : word.kind = kind) (round : ∀ token : Token, token.lexeme = word →
      (body value token >>= fun value =>
        foldWhile (ofKind kind) body value >>= behind).Delivers words rest post) :
    (foldWhile (ofKind kind) body value >>= behind).Delivers (word :: words) rest post :=
  delivers_foldWhile_enter fun token same =>
    ⟨token, ofKind_eq_some (by rw [← isKind, ← same, Token.lexeme_kind]), round token same⟩

end Kinds

theorem delivers_skipLineBreaks (breaks : Breaks front)
    (stops : leading .endOfInput rest ≠ .newline) :
    skipLineBreaks.Delivers front rest fun _ => True := by
  induction front with
  | nil =>
    exact (delivers_whileKind_stop stops).weaken fun _ _ => trivial
  | cons word front ih =>
    change skipLineBreaks.Delivers (word :: ([] ++ front)) rest fun _ => True
    refine delivers_foldWhile_round (fun _ => True) ?_ fun _ _ =>
      ih fun other member => breaks other (by simp [member])
    intro token same
    have isBreak : token.kind = .newline := by
      rw [← Token.lexeme_kind, same]
      exact breaks word (by simp)
    exact ⟨token, ofKind_eq_some isBreak, .pure trivial⟩

end Parlance.Parser
