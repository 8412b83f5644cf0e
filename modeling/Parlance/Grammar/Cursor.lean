import Parlance.Token.Reading

/-!
Contract: reading a row of tokens from the front.

Owns: the cursor (the tokens still to come, how they end, the span of the token taken last), the
parser type, its primitive steps and its one loop. A parser carries the law that what it leaves is a
tail of what it found, with the same ending; every parser built from the steps below has it, and the
loop needs no other reason to stop. Does not own: any rule of the grammar.

The end of the input is never taken. A fault in the text surfaces when a parser looks at its place,
and not before. Embeds `_peek`, `_advance`, `_expect`, `_skip_newlines` and `_span_from`.
-/

namespace Parlance

/-- The tokens still to come, how they end, and the span of the token taken last. -/
structure Cursor where
  tokens : List Token
  ending : Ending
  last : Span
deriving DecidableEq, Repr

namespace Cursor

def ofReading (reading : Reading) : Cursor :=
  ⟨reading.tokens, reading.ending, .origin⟩

/-- The second cursor stands at or behind the first, in the same row of tokens. -/
structure Leads (here : Cursor) (next : Cursor) : Prop where
  tokens : next.tokens <:+ here.tokens
  ending : next.ending = here.ending

theorem Leads.refl (here : Cursor) : here.Leads here :=
  ⟨List.suffix_refl _, rfl⟩

theorem Leads.trans {first second third : Cursor} (left : first.Leads second)
    (right : second.Leads third) :
    first.Leads third :=
  ⟨right.tokens.trans left.tokens, right.ending.trans left.ending⟩

def atEnd (here : Cursor) : Except Failure Token :=
  match here.ending with
  | .finished span => .ok (.endOfInput span)
  | .broken failure => .error failure

def peek (here : Cursor) : Except Failure Token :=
  match here.tokens with
  | token :: _ => .ok token
  | [] => here.atEnd

def peekSecond (here : Cursor) : Except Failure Token :=
  match here.tokens with
  | _ :: token :: _ => .ok token
  | _ => here.atEnd

def behind (here : Cursor) (token : Token) (rest : List Token) : Cursor :=
  ⟨rest, here.ending, token.span⟩

theorem leads_behind {here : Cursor} {token : Token} {rest : List Token}
    (tokens : here.tokens = token :: rest) :
    here.Leads (here.behind token rest) :=
  ⟨tokens ▸ List.suffix_cons token rest, rfl⟩

/-- What holds at a cursor if it holds wherever the first token is taken holds at every cursor. A loop
that takes a token in every round is followed by this induction. -/
theorem taken_induction {holds : Cursor → Prop} (here : Cursor)
    (step : ∀ here, (∀ token rest next, here.tokens = token :: rest → next.tokens <:+ rest →
      holds next) → holds here) :
    holds here := by
  induction length : here.tokens.length using Nat.strongRecOn generalizing here with
  | ind size ih =>
    refine step here fun token rest next tokens isTail => ih _ ?_ next rfl
    rw [← length, tokens, List.length_cons]
    exact Nat.lt_succ_of_le isTail.length_le

end Cursor

/-- A step through a row of tokens. -/
structure Parser (α : Type) where
  run : Cursor → Except Failure (α × Cursor)
  leads : ∀ here value next, run here = .ok (value, next) → here.Leads next

namespace Parser

variable {α β γ : Type}

/-- The step that takes nothing and gives a value. -/
protected def pure (value : α) : Parser α where
  run here := .ok (value, here)
  leads here _ next found := by
    cases found
    exact .refl here

/-- One step after another. A failure of the first is the failure of both. -/
protected def bind (first : Parser α) (second : α → Parser β) : Parser β where
  run here :=
    match first.run here with
    | .error failure => .error failure
    | .ok (value, next) => (second value).run next
  leads here value next found := by
    cases outcome : first.run here with
    | error failure => simp [outcome] at found
    | ok reply =>
      obtain ⟨middle, between⟩ := reply
      simp only [outcome] at found
      exact (first.leads here middle between outcome).trans
        ((second middle).leads between value next found)

instance: Monad Parser where
  pure := Parser.pure
  bind := Parser.bind

@[simp] theorem run_pure (value : α) (here : Cursor) :
    (pure value : Parser α).run here = .ok (value, here) := rfl

@[simp] theorem run_bind (first : Parser α) (second : α → Parser β) (here : Cursor) :
    (first >>= second).run here =
      match first.run here with
      | .error failure => .error failure
      | .ok (value, next) => (second value).run next := rfl

def fail (fault : Fault) (span : Span) : Parser α where
  run _ := .error ⟨fault, span⟩
  leads _ _ _ found := by cases found

def look (view : Cursor → Except Failure α) : Parser α where
  run here :=
    match view here with
    | .error failure => .error failure
    | .ok value => .ok (value, here)
  leads here value next found := by
    cases outcome : view here with
    | error failure => simp [outcome] at found
    | ok seen =>
      simp only [outcome, Except.ok.injEq, Prod.mk.injEq] at found
      exact found.2 ▸ .refl here

def peek : Parser Token :=
  look Cursor.peek

def peekSecond : Parser Token :=
  look Cursor.peekSecond

def lastSpan : Parser Span :=
  look fun here => .ok here.last

/-- Takes the next token. At the end of the input there is nothing to take. -/
def take : Parser Token where
  run here :=
    match here.tokens with
    | token :: rest => .ok (token, here.behind token rest)
    | [] =>
      match here.atEnd with
      | .error failure => .error failure
      | .ok token => .ok (token, here)
  leads here value next found := by
    cases tokens : here.tokens with
    | nil =>
      cases outcome : here.atEnd with
      | error failure => simp [tokens, outcome] at found
      | ok token =>
        simp only [tokens, outcome, Except.ok.injEq, Prod.mk.injEq] at found
        exact found.2 ▸ .refl here
    | cons token rest =>
      simp only [tokens, Except.ok.injEq, Prod.mk.injEq] at found
      obtain ⟨_, rfl⟩ := found
      exact ⟨tokens ▸ List.suffix_cons token rest, rfl⟩

/-- Fails at the next token, for want of something else. -/
def reject (wanted : Expectation) : Parser α := do
  let token ← peek
  fail (.unexpected wanted token) token.span

def next (kind : Kind) : Parser Bool := do
  return (← peek).kind == kind

/-- Takes the next token if it is of the given kind, and tells whether it was. -/
def accept (kind : Kind) : Parser Bool := do
  if ← next kind then
    let _ ← take
    return true
  else return false

def expect (kind : Kind) (wanted : Expectation) : Parser Token := do
  if ← next kind then take else reject wanted

def spanFrom (start : Span) : Parser Span :=
  return start.through (← lastSpan)

/-- The loop behind `foldWhile`, which runs at most once for every token of the first list. -/
def foldTokens (select : Token → Option γ)
    (body : β → γ → Parser β) : List Token → β → Cursor → Except Failure (β × Cursor)
  | [], value, here =>
    match here.peek with
    | .error failure => .error failure
    | .ok _ => .ok (value, here)
  | _ :: rounds, value, here =>
    match here.tokens with
    | [] =>
      match here.atEnd with
      | .error failure => .error failure
      | .ok _ => .ok (value, here)
    | token :: rest =>
      match select token with
      | none => .ok (value, here)
      | some choice =>
        match (body value choice).run (here.behind token rest) with
        | .error failure => .error failure
        | .ok (value, next) => foldTokens select body rounds value next

theorem foldTokens_leads (select : Token → Option γ) (body : β → γ → Parser β) (rounds : List Token)
    (value : β) (here : Cursor) (result : β) (next : Cursor)
    (found : foldTokens select body rounds value here = .ok (result, next)) :
    here.Leads next := by
  induction rounds generalizing value here with
  | nil =>
    cases outcome : here.peek with
    | error failure => simp [foldTokens, outcome] at found
    | ok token =>
      simp only [foldTokens, outcome, Except.ok.injEq, Prod.mk.injEq] at found
      exact found.2 ▸ .refl here
  | cons round rounds ih =>
    cases tokens : here.tokens with
    | nil =>
      cases outcome : here.atEnd with
      | error failure => simp [foldTokens, tokens, outcome] at found
      | ok token =>
        simp only [foldTokens, tokens, outcome, Except.ok.injEq, Prod.mk.injEq] at found
        exact found.2 ▸ .refl here
    | cons token rest =>
      cases selected : select token with
      | none =>
        simp only [foldTokens, tokens, selected, Except.ok.injEq, Prod.mk.injEq] at found
        exact found.2 ▸ .refl here
      | some choice =>
        cases outcome : (body value choice).run (here.behind token rest) with
        | error failure => simp [foldTokens, tokens, selected, outcome] at found
        | ok reply =>
          obtain ⟨middle, between⟩ := reply
          simp only [foldTokens, tokens, selected, outcome] at found
          have round := (body value choice).leads _ _ _ outcome
          exact ((Cursor.leads_behind tokens).trans round).trans (ih middle between found)

/-- While the next token is selected, takes it and goes on with the body. The end of the input is
never selected. -/
def foldWhile (select : Token → Option γ) (body : β → γ → Parser β) (value : β) : Parser β where
  run here := foldTokens select body here.tokens value here
  leads here result next found :=
    foldTokens_leads select body here.tokens value here result next found

/-- Rounds beyond the number of tokens do not matter. -/
theorem foldTokens_congr (select : Token → Option γ) (body : β → γ → Parser β)
    (left right : List Token) (value : β) (here : Cursor)
    (leftEnough : here.tokens.length ≤ left.length)
    (rightEnough : here.tokens.length ≤ right.length) :
    foldTokens select body left value here = foldTokens select body right value here := by
  induction left generalizing value here right with
  | nil =>
    have empty : here.tokens = [] := List.eq_nil_of_length_eq_zero (by simpa using leftEnough)
    cases right with
    | nil => rfl
    | cons _ _ => simp [foldTokens, Cursor.peek, empty]
  | cons round left ih =>
    cases right with
    | nil =>
      have empty : here.tokens = [] :=
        List.eq_nil_of_length_eq_zero (by simpa using rightEnough)
      simp [foldTokens, Cursor.peek, empty]
    | cons round' right =>
      cases tokens : here.tokens with
      | nil => simp [foldTokens, tokens]
      | cons token rest =>
        cases selected : select token with
        | none => simp [foldTokens, tokens, selected]
        | some choice =>
          cases outcome : (body value choice).run (here.behind token rest) with
          | error failure => simp [foldTokens, tokens, selected, outcome]
          | ok reply =>
            obtain ⟨middle, between⟩ := reply
            have shorter : between.tokens.length ≤ rest.length :=
              ((body value choice).leads _ _ _ outcome).tokens.length_le
            simp only [foldTokens, tokens, selected, outcome]
            simp only [tokens, List.length_cons] at leftEnough rightEnough
            exact ih right middle between (by omega) (by omega)

/-- One round of the loop: it stops at a token that is not selected and at the end of the input, and
otherwise starts again behind what the body took. -/
theorem run_foldWhile (select : Token → Option γ) (body : β → γ → Parser β) (value : β)
    (here : Cursor) :
    (foldWhile select body value).run here =
      match here.tokens with
      | [] =>
        match here.atEnd with
        | .error failure => .error failure
        | .ok _ => .ok (value, here)
      | token :: rest =>
        match select token with
        | none => .ok (value, here)
        | some choice =>
          match (body value choice).run (here.behind token rest) with
          | .error failure => .error failure
          | .ok (value, next) => (foldWhile select body value).run next := by
  cases tokens : here.tokens with
  | nil => simp [foldWhile, foldTokens, Cursor.peek, tokens]
  | cons token rest =>
    cases selected : select token with
    | none => simp [foldWhile, foldTokens, tokens, selected]
    | some choice =>
      cases outcome : (body value choice).run (here.behind token rest) with
      | error failure => simp [foldWhile, foldTokens, tokens, selected, outcome]
      | ok reply =>
        obtain ⟨middle, between⟩ := reply
        have shorter : between.tokens.length ≤ rest.length :=
          ((body value choice).leads _ _ _ outcome).tokens.length_le
        simp only [foldWhile, foldTokens, tokens, selected, outcome]
        exact foldTokens_congr select body rest between.tokens middle between shorter
          (Nat.le_refl _)

def ofKind (kind : Kind) (token : Token) : Option Token :=
  if token.kind == kind then some token else none

def skipLineBreaks : Parser Unit :=
  foldWhile (ofKind .newline) (fun _ _ => return ()) ()

end Parser

end Parlance
