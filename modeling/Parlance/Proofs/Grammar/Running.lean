import Parlance.Grammar.Short
import Parlance.Proofs.Grammar.Delivery
import Parlance.Proofs.Token.Extent

/-!
Contract: what a run of a parser comes to.

`parser.Runs kind last post viable` speaks of the runs before a word of the given kind, with the
given span of the token taken before. If such a run succeeds, the tokens it takes, the kind of the
token behind them and the value are as `post` says, and it has looked at no more than one token
behind them. If it fails, and not for want of levels, the words it has taken are `viable`, and it
stops at the token behind them: that token is the one it blames, or the assignment operator behind
what cannot be assigned. What stands behind the token does not matter.

Owns: this judgement and one rule for each of the steps that parsers are made of. The rules peel
steps from the front: behind a step, what is to be shown speaks of the tokens taken so far with those
still to come. It says nothing of how a text with faults of its own fails.
-/

namespace Parlance

variable {earlier : List Lexeme → Prop}

/-- The token at which a failure of the grammar arises. -/
inductive Failure.Halts (failure : Failure) (token : Token) : Prop where
  /-- The failure names the token and bears its span. -/
  | unexpected (wanted : Expectation) (found : Token)
      (isFault : failure.fault = .unexpected wanted found)
      (isToken : found.describe = token.describe) (isSpan : failure.span = token.span) :
      Failure.Halts failure token
  /-- What stands before an assignment operator cannot be assigned. -/
  | badTarget (op : AssignOp) (isFault : failure.fault = .badTarget)
      (isOp : AssignOp.ofKind? token.kind = some op) :
      Failure.Halts failure token

namespace Cursor

variable {here there next : Cursor}

theorem kind_of_tokens {token : Token} {rest : List Token} (tokens : here.tokens = token :: rest) :
    here.kind = token.kind := by
  rw [Cursor.kind, Cursor.words_of_tokens tokens]
  rfl

theorem leading_of_tokens {taken : List Token} (tokens : here.tokens = taken ++ next.tokens) :
    Lexeme.leading next.kind (taken.map Token.lexeme) = here.kind := by
  apply Cursor.leading_of_words
  rw [Cursor.words, tokens, List.map_append]
  rfl

theorem peekSecond_of_cons {token : Token} {rest : List Token}
    (tokens : here.tokens = token :: rest) :
    here.peekSecond = (here.behind token rest).peek := by
  rw [Cursor.peekSecond, tokens]
  cases rest <;> rfl

structure Alike (count : Nat) (here there : Cursor) : Prop where
  tokens : there.tokens.take count = here.tokens.take count
  enough : count ≤ there.tokens.length

theorem Alike.front {count : Nat} {front behind : List Token} {token : Token}
    (tokens : here.tokens = front ++ token :: behind) (inside : count ≤ front.length)
    (others : List Token) (ending : Ending) (last : Span) :
    Alike (count + 1) here ⟨front ++ token :: others, ending, last⟩ := by
  have within : count + 1 ≤ (front ++ [token]).length := by simpa using inside
  refine ⟨?_, by simp only [List.length_append, List.length_cons]; omega⟩
  rw [tokens, List.append_cons front token others, List.append_cons front token behind,
    List.take_append_of_le_length within, List.take_append_of_le_length within]

theorem Alike.first (alike : Alike 1 here there) :
    ∃ token rest others, here.tokens = token :: rest ∧ there.tokens = token :: others := by
  obtain ⟨same, enough⟩ := alike
  cases isHere : here.tokens with
  | nil => cases isThere : there.tokens <;> simp [isHere, isThere] at same enough
  | cons token rest =>
    cases isThere : there.tokens with
    | nil => simp [isThere] at enough
    | cons other others =>
      rw [isHere, isThere] at same
      obtain rfl : other = token := by simpa using same
      exact ⟨other, rest, others, rfl, rfl⟩

theorem Alike.peek (alike : Alike 1 here there) : there.peek = here.peek := by
  obtain ⟨token, rest, others, isHere, isThere⟩ := alike.first
  rw [Cursor.peek, Cursor.peek, isHere, isThere]

theorem Alike.fewer {count : Nat} (alike : Alike (count + 1) here there) :
    Alike count here there := by
  refine ⟨?_, Nat.le_of_succ_le alike.enough⟩
  have shorter := congrArg (List.take count) alike.tokens
  simpa [List.take_take] using shorter

theorem Alike.peekSecond (alike : Alike 2 here there) : there.peekSecond = here.peekSecond := by
  obtain ⟨token, rest, others, isHere, isThere⟩ := alike.fewer.first
  obtain ⟨same, enough⟩ := alike
  rw [isHere, isThere] at same
  rw [isThere] at enough
  have behind : Alike 1 (here.behind token rest) (there.behind token others) :=
    ⟨(List.cons.inj same).2, Nat.le_of_succ_le_succ enough⟩
  rw [peekSecond_of_cons isHere, peekSecond_of_cons isThere, behind.peek]

end Cursor

namespace Parser

open Lexeme

variable {α β γ : Type} {kind wanted : Kind} {last span : Span} {viable : List Lexeme → Prop}
variable {post : List Token → Kind → β → Prop} {second : Token → Parser β}
variable {parser other : Parser α} {here next middle : Cursor} {failure : Failure} {value : α}
variable {taken front rest : List Token} {token : Token}

theorem tokens_of_kind (isKind : here.kind = kind) (notOver : kind ≠ .endOfInput) :
    ∃ token rest, here.tokens = token :: rest := by
  cases tokens : here.tokens with
  | nil =>
    have isOver : here.kind = .endOfInput := by simp [Cursor.kind, Cursor.words, tokens]
    exact absurd (isKind.symm.trans isOver) notOver
  | cons token rest => exact ⟨token, rest, rfl⟩

/-! ## Two outcomes -/

/-- A run that succeeds here has taken the tokens, and would have done so with anything else behind
the token that it stands before. -/
structure Leaves (parser : Parser α) (here : Cursor) (value : α) (next : Cursor)
    (taken : List Token) : Prop where
  tokens : here.tokens = taken ++ next.tokens
  last : next.last = endSpan here.last taken
  elsewhere : ∀ token behind, next.tokens = token :: behind → ∀ others ending,
    parser.run ⟨taken ++ token :: others, ending, here.last⟩ =
      .ok (value, ⟨token :: others, ending, next.last⟩)

/-- A parser that fails here has taken `front` and stopped at `token`, the first of the rest or the
end of the input, whatever stands behind it. -/
structure Stops (parser : Parser α) (here : Cursor) (span : Span) (failure : Failure)
    (front rest : List Token) (token : Token) : Prop where
  tokens : here.tokens = front ++ rest
  seen : rest.head?.getD (.endOfInput span) = token
  halts : failure.Halts token
  elsewhere : ∀ behind, rest = token :: behind → ∀ others ending,
    parser.run ⟨front ++ token :: others, ending, here.last⟩ = .error failure

structure RunsAt (parser : Parser α) (here : Cursor) (post : List Token → Kind → α → Prop)
    (viable : List Lexeme → Prop) : Prop where
  leaves : ∀ value next, parser.run here = .ok (value, next) →
    ∃ taken, parser.Leaves here value next taken ∧ post taken next.kind value
  stops : ∀ span failure, here.ending = .finished span → parser.run here = .error failure →
    failure.fault.code ≠ "E202" →
      ∃ front rest token, parser.Stops here span failure front rest token ∧
        viable (front.map Token.lexeme)

/-- What the runs of the parser come to before a word of the given kind. -/
def Runs (parser : Parser α) (kind : Kind) (last : Span) (post : List Token → Kind → α → Prop)
    (viable : List Lexeme → Prop) : Prop :=
  ∀ here, here.kind = kind → here.last = last → parser.RunsAt here post viable

theorem Leaves.again (leaves : parser.Leaves here value next taken) {behind : List Token}
    (isNext : next.tokens = front ++ token :: behind) (others : List Token) (ending : Ending) :
    parser.run ⟨taken ++ (front ++ token :: others), ending, here.last⟩ =
      .ok (value, ⟨front ++ token :: others, ending, next.last⟩) := by
  cases front with
  | nil => exact leaves.elsewhere token behind isNext others ending
  | cons first front => exact leaves.elsewhere first _ isNext (front ++ token :: others) ending

theorem Leaves.leading (leaves : parser.Leaves here value next taken) :
    leading next.kind (taken.map Token.lexeme) = here.kind :=
  Cursor.leading_of_tokens leaves.tokens

theorem Leaves.bind {second : α → Parser β} {result : β} {more : List Token}
    (leaves : parser.Leaves here value middle taken)
    (goesOn : (second value).Leaves middle result next more) :
    (parser >>= second).Leaves here result next (taken ++ more) where
  tokens := by rw [leaves.tokens, goesOn.tokens, List.append_assoc]
  last := by rw [goesOn.last, leaves.last, endSpan_append]
  elsewhere := by
    intro token behind isNext others ending
    have isMiddle : middle.tokens = more ++ token :: behind := by rw [goesOn.tokens, isNext]
    rw [List.append_assoc, run_bind, leaves.again isMiddle others ending]
    exact goesOn.elsewhere token behind isNext others ending

theorem Leaves.stops {second : α → Parser β} (leaves : parser.Leaves here value middle taken)
    (stops : (second value).Stops middle span failure front rest token) :
    (parser >>= second).Stops here span failure (taken ++ front) rest token where
  tokens := by rw [leaves.tokens, stops.tokens, List.append_assoc]
  seen := stops.seen
  halts := stops.halts
  elsewhere := by
    intro behind isRest others ending
    have isMiddle : middle.tokens = front ++ token :: behind := by rw [stops.tokens, isRest]
    rw [List.append_assoc, run_bind, leaves.again isMiddle others ending]
    exact stops.elsewhere behind isRest others ending

/-! ## At one place -/

namespace RunsAt

theorem weaken {post weaker : List Token → Kind → α → Prop} (runs : parser.RunsAt here post earlier)
    (implies : ∀ taken next value, leading next (taken.map Token.lexeme) = here.kind →
      post taken next value → weaker taken next value)
    (widens : ∀ words, earlier words → viable words) : parser.RunsAt here weaker viable where
  leaves := by
    intro value next run
    obtain ⟨taken, leaves, holds⟩ := runs.leaves value next run
    exact ⟨taken, leaves, implies taken next.kind value leaves.leading holds⟩
  stops := by
    intro span failure isFinished run shallow
    obtain ⟨front, rest, token, stops, isViable⟩ := runs.stops span failure isFinished run shallow
    exact ⟨front, rest, token, stops, widens _ isViable⟩

theorem bind {second : α → Parser β} {between : List Token → Kind → α → Prop}
    (runs : parser.RunsAt here between earlier) (widens : ∀ words, earlier words → viable words)
    (goesOn : ∀ taken value next, parser.Leaves here value next taken →
      between taken next.kind value →
        (second value).RunsAt next (fun more next result => post (taken ++ more) next result)
          (fun words => viable (taken.map Token.lexeme ++ words))) :
    (parser >>= second).RunsAt here post viable where
  leaves := by
    intro result next run
    rw [run_bind] at run
    cases outcome : parser.run here with
    | error cause => simp [outcome] at run
    | ok reply =>
      obtain ⟨value, middle⟩ := reply
      simp only [outcome] at run
      obtain ⟨taken, leaves, holds⟩ := runs.leaves value middle outcome
      obtain ⟨more, moreLeaves, final⟩ :=
        (goesOn taken value middle leaves holds).leaves result next run
      exact ⟨taken ++ more, leaves.bind moreLeaves, final⟩
  stops := by
    intro span failure isFinished run shallow
    rw [run_bind] at run
    cases outcome : parser.run here with
    | error cause =>
      simp only [outcome, Except.error.injEq] at run
      subst run
      obtain ⟨front, rest, token, stops, isViable⟩ :=
        runs.stops span cause isFinished outcome shallow
      refine ⟨front, rest, token, ⟨stops.tokens, stops.seen, stops.halts, ?_⟩, widens _ isViable⟩
      intro behind isRest others ending
      rw [run_bind, stops.elsewhere behind isRest others ending]
    | ok reply =>
      obtain ⟨value, middle⟩ := reply
      simp only [outcome] at run
      obtain ⟨taken, leaves, holds⟩ := runs.leaves value middle outcome
      have middleFinished := (parser.leads _ _ _ outcome).ending.trans isFinished
      obtain ⟨front, rest, token, stops, isViable⟩ :=
        (goesOn taken value middle leaves holds).stops span failure middleFinished run shallow
      refine ⟨taken ++ front, rest, token, leaves.stops stops, ?_⟩
      rw [List.map_append]
      exact isViable

/-- A parser does what another one does if it cannot tell them apart by the first tokens. All of
these but one are taken. -/
theorem congrAhead {count : Nat} {post : List Token → Kind → α → Prop}
    (runs : parser.RunsAt here (fun taken next value => post taken next value ∧ count ≤ taken.length)
      (fun words => viable words ∧ count ≤ words.length))
    (isHere : other.run here = parser.run here)
    (same : ∀ there, Cursor.Alike (count + 1) here there → other.run there = parser.run there) :
    other.RunsAt here post viable where
  leaves := by
    intro value next run
    obtain ⟨taken, leaves, holds, inside⟩ := runs.leaves value next (isHere.symm.trans run)
    refine ⟨taken, ⟨leaves.tokens, leaves.last, ?_⟩, holds⟩
    intro token behind isNext others ending
    have tokens : here.tokens = taken ++ token :: behind := by rw [leaves.tokens, isNext]
    rw [same _ (.front tokens inside others ending here.last)]
    exact leaves.elsewhere token behind isNext others ending
  stops := by
    intro span failure isFinished run shallow
    obtain ⟨front, rest, token, stops, isViable, inside⟩ :=
      runs.stops span failure isFinished (isHere.symm.trans run) shallow
    refine ⟨front, rest, token, ⟨stops.tokens, stops.seen, stops.halts, ?_⟩, isViable⟩
    intro behind isRest others ending
    have tokens : here.tokens = front ++ token :: behind := by rw [stops.tokens, isRest]
    rw [same _ (.front tokens (by simpa using inside) others ending here.last)]
    exact stops.elsewhere behind isRest others ending

theorem congr {post : List Token → Kind → α → Prop} (runs : parser.RunsAt here post viable)
    (isHere : other.run here = parser.run here)
    (same : ∀ there, Cursor.Alike 1 here there → other.run there = parser.run there) :
    other.RunsAt here post viable :=
  (runs.weaken (fun _ _ _ _ holds => ⟨holds, Nat.zero_le _⟩)
    fun _ isViable => ⟨isViable, Nat.zero_le _⟩).congrAhead isHere same

/-- A place that cannot be looked at is one where the text has a fault. -/
theorem ofBroken {failure : Failure} (run : parser.run here = .error failure)
    (broken : here.ending = .broken failure) {post : List Token → Kind → α → Prop} :
    parser.RunsAt here post viable where
  leaves := by simp [run]
  stops := by simp [broken]

theorem done {post : List Token → Kind → α → Prop} (holds : post [] here.kind value)
    (isHere : parser.run here = .ok (value, here))
    (same : ∀ there, Cursor.Alike 1 here there → parser.run there = .ok (value, there)) :
    parser.RunsAt here post viable := by
  have runs : (pure value : Parser α).RunsAt here post viable := by
    refine ⟨?_, fun _ _ _ run => by cases run⟩
    rintro _ _ ⟨⟩
    exact ⟨[], ⟨rfl, rfl, fun _ _ _ _ _ => rfl⟩, holds⟩
  exact runs.congr isHere same

theorem take (tokens : here.tokens = token :: rest) :
    take.RunsAt here (fun taken _ found => taken = [token] ∧ found = token) viable where
  leaves := by
    intro value next run
    rw [Parser.take] at run
    simp only [tokens, Except.ok.injEq, Prod.mk.injEq] at run
    obtain ⟨rfl, rfl⟩ := run
    exact ⟨[token], ⟨tokens, rfl, fun _ _ _ _ _ => rfl⟩, rfl, rfl⟩
  stops := by
    intro span failure _ run
    simp [Parser.take, tokens] at run

end RunsAt

/-! ## One step after another -/

theorem Runs.weaken {post weaker : List Token → Kind → α → Prop}
    (runs : parser.Runs kind last post earlier)
    (implies : ∀ taken next value, leading next (taken.map Token.lexeme) = kind →
      post taken next value → weaker taken next value)
    (widens : ∀ words, earlier words → viable words) : parser.Runs kind last weaker viable := by
  rintro here rfl isLast
  exact (runs here rfl isLast).weaken implies widens

theorem Runs.pure {value : α} {post : List Token → Kind → α → Prop} (holds : post [] kind value) :
    (pure value : Parser α).Runs kind last post viable := by
  rintro here rfl _
  exact .done holds rfl fun _ _ => rfl

theorem Runs.bind {second : α → Parser β} {between : List Token → Kind → α → Prop}
    (runs : parser.Runs kind last between earlier) (widens : ∀ words, earlier words → viable words)
    (goesOn : ∀ taken middle value, leading middle (taken.map Token.lexeme) = kind →
      between taken middle value →
        (second value).Runs middle (endSpan last taken)
          (fun more next result => post (taken ++ more) next result)
          (fun words => viable (taken.map Token.lexeme ++ words))) :
    (parser >>= second).Runs kind last post viable := by
  rintro here rfl rfl
  refine (runs here rfl rfl).bind widens fun taken value next leaves holds => ?_
  exact goesOn taken next.kind value leaves.leading holds next rfl leaves.last

theorem Runs.bindLast {second : α → Parser β} {between : List Token → Kind → α → Prop}
    (runs : parser.Runs kind last between earlier) (widens : ∀ words, earlier words → viable words)
    (goesOn : ∀ taken middle value, leading middle (taken.map Token.lexeme) = kind →
      between taken middle value →
        (second value).Runs middle (endSpan last taken)
          (fun more next result => more = [] ∧ post taken next result)
          (fun words => viable (taken.map Token.lexeme ++ words))) :
    (parser >>= second).Runs kind last post viable := by
  refine runs.bind widens fun taken middle value leads holds => ?_
  refine (goesOn taken middle value leads holds).weaken ?_ fun _ isViable => isViable
  rintro _ next result - ⟨rfl, final⟩
  rwa [List.append_nil]

/-- What a parser has taken when it fails begins with the word that it stood before. -/
theorem Runs.begins {post : List Token → Kind → α → Prop}
    (runs : parser.Runs kind last post viable) :
    parser.Runs kind last post fun words =>
      viable words ∧ ∀ first rest, words = first :: rest → first.kind = kind := by
  rintro here rfl isLast
  refine ⟨(runs here rfl isLast).leaves, fun span failure isFinished run shallow => ?_⟩
  obtain ⟨front, rest, token, stops, isViable⟩ :=
    (runs here rfl isLast).stops span failure isFinished run shallow
  refine ⟨front, rest, token, stops, isViable, fun first more isFront => ?_⟩
  have words : here.words = (first :: more) ++ rest.map Token.lexeme := by
    rw [Cursor.words, stops.tokens, List.map_append, isFront]
  rw [Cursor.kind, words]
  rfl

/-! ## Looking -/

theorem RunsAt.look {ι : Type} {view : Cursor → Except Failure ι} {second : ι → Parser β}
    (fault : ∀ failure, view here = .error failure → here.ending = .broken failure)
    (goesOn : ∀ seen, view here = .ok seen → (look view >>= second).RunsAt here post viable) :
    (look view >>= second).RunsAt here post viable := by
  cases seen : view here with
  | ok value => exact goesOn value seen
  | error failure =>
    refine .ofBroken ?_ (fault failure seen)
    rw [run_bind, Parser.look]
    simp only [seen]

theorem broken_of_atEnd (fault : here.atEnd = .error failure) : here.ending = .broken failure := by
  cases ending : here.ending with
  | finished span => simp [Cursor.atEnd, ending] at fault
  | broken cause =>
    simp only [Cursor.atEnd, ending, Except.error.injEq] at fault
    rw [fault]

theorem broken_of_peek (fault : here.peek = .error failure) : here.ending = .broken failure := by
  cases tokens : here.tokens with
  | nil => exact broken_of_atEnd (by simpa [Cursor.peek, tokens] using fault)
  | cons first rest => simp [Cursor.peek, tokens] at fault

theorem broken_of_peekSecond (fault : here.peekSecond = .error failure) :
    here.ending = .broken failure := by
  unfold Cursor.peekSecond at fault
  split at fault
  · cases fault
  · exact broken_of_atEnd fault

theorem run_look_bind_of {ι : Type} {view : Cursor → Except Failure ι} {second : ι → Parser β}
    {seen : ι} (sees : view here = .ok seen) :
    (look view >>= second).run here = (second seen).run here := by
  rw [run_bind, look]
  simp only [sees]

/-- A parser that looks at the next token and then takes tokens begins with that token. -/
theorem Runs.bindFirst (goesOn : ∀ token : Token, token.kind = kind →
      (second token).Runs kind last
        (fun taken next result =>
          (∀ first rest, taken = first :: rest → first = token) → post taken next result)
        viable) :
    (peek >>= second).Runs kind last post viable := by
  rintro here rfl isLast
  refine .look (fun _ fault => broken_of_peek fault) fun token seen => ?_
  have runs := goesOn token (Cursor.kind_of_peek seen) here rfl isLast
  refine RunsAt.congr ⟨?_, runs.stops⟩ (run_look_bind_of seen) fun there alike =>
    run_look_bind_of (alike.peek.trans seen)
  intro result next run
  obtain ⟨taken, leaves, holds⟩ := runs.leaves result next run
  refine ⟨taken, leaves, holds ?_⟩
  rintro first rest rfl
  rw [Cursor.peek, leaves.tokens, List.cons_append] at seen
  exact Except.ok.inj seen

theorem Runs.bindPeek
    (goesOn : ∀ token : Token, token.kind = kind → (second token).Runs kind last post viable) :
    (peek >>= second).Runs kind last post viable :=
  .bindFirst fun token same =>
    (goesOn token same).weaken (fun _ _ _ _ holds _ => holds) fun _ isViable => isViable

/-- A parser that looks at the second token takes the first, and does not fail at it. -/
theorem Runs.bindPeekSecond (goesOn : ∀ token, (second token).Runs kind last
      (fun taken next result => post taken next result ∧ taken ≠ [])
      (fun words => viable words ∧ words ≠ [])) :
    (peekSecond >>= second).Runs kind last post viable := by
  intro here isKind isLast
  refine .look (fun _ fault => broken_of_peekSecond fault) fun token seen => ?_
  refine RunsAt.congrAhead ((goesOn token here isKind isLast).weaken ?_ ?_) (run_look_bind_of seen)
    fun there alike => run_look_bind_of (alike.peekSecond.trans seen)
  · exact fun taken _ _ _ holds => ⟨holds.1, List.length_pos_iff.mpr holds.2⟩
  · exact fun words isViable => ⟨isViable.1, List.length_pos_iff.mpr isViable.2⟩

theorem Runs.bindNext {second : Bool → Parser β}
    (goesOn : (second (kind == wanted)).Runs kind last post viable) :
    (Parser.next wanted >>= second).Runs kind last post viable := by
  rw [Parser.next, bind_assoc]
  refine .bindPeek fun token same => ?_
  rw [pure_bind, same]
  exact goesOn

theorem Runs.bindSpan {start : Span} {second : Span → Parser β}
    (goesOn : (second (start.through last)).Runs kind last post viable) :
    (spanFrom start >>= second).Runs kind last post viable := by
  rintro here isKind rfl
  obtain ⟨leaves, stops⟩ := goesOn here isKind rfl
  refine ⟨fun result next run => ?_, fun span failure isFinished run shallow => ?_⟩
  · obtain ⟨taken, leaves, holds⟩ := leaves result next run
    exact ⟨taken, ⟨leaves.tokens, leaves.last, leaves.elsewhere⟩, holds⟩
  · obtain ⟨front, rest, token, stops, isViable⟩ := stops span failure isFinished run shallow
    exact ⟨front, rest, token, ⟨stops.tokens, stops.seen, stops.halts, stops.elsewhere⟩, isViable⟩

/-! ## Failing -/

theorem runs_reject {wanted : Expectation} {post : List Token → Kind → α → Prop}
    (isViable : viable []) :
    (reject wanted : Parser α).Runs kind last post viable := by
  refine fun here _ _ => ⟨fun value next run => ?_, fun span failure isFinished run _ => ?_⟩
  · rw [reject, run_bind] at run
    split at run <;> cases run
  obtain ⟨token, seen⟩ := Cursor.peek_of_finished isFinished
  have rejects : ∀ there : Cursor, there.peek = .ok token →
      (reject wanted : Parser α).run there = .error ⟨.unexpected wanted token, token.span⟩ :=
    fun there sees => run_look_bind_of sees
  rw [rejects here seen] at run
  obtain rfl := Except.error.inj run
  refine ⟨[], here.tokens, token, ⟨rfl, ?_, .unexpected wanted token rfl rfl rfl, ?_⟩, isViable⟩
  · cases tokens : here.tokens with
    | nil =>
      simp only [Cursor.peek, tokens, Cursor.atEnd, isFinished, Except.ok.injEq] at seen
      exact seen
    | cons first rest =>
      simp only [Cursor.peek, tokens, Except.ok.injEq] at seen
      exact seen
  · exact fun behind isRest others ending => rejects _ rfl

/-- Before an assignment operator, what stands before it cannot be assigned. -/
theorem runs_badTarget {op : AssignOp} {post : List Token → Kind → α → Prop}
    (isOp : AssignOp.ofKind? kind = some op) (isViable : viable []) :
    (fail .badTarget span : Parser α).Runs kind last post viable := by
  rintro here rfl _
  refine ⟨fun value next run => (by cases run), ?_⟩
  rintro stop _ isFinished ⟨⟩ _
  have notOver : here.kind ≠ .endOfInput := by
    intro isOver
    rw [isOver] at isOp
    cases isOp
  obtain ⟨token, rest, tokens⟩ := tokens_of_kind rfl notOver
  refine ⟨[], here.tokens, token, ⟨rfl, by rw [tokens]; rfl, ?_, fun _ _ _ _ => rfl⟩, isViable⟩
  exact .badTarget op rfl (by rw [← Cursor.kind_of_tokens tokens]; exact isOp)

/-! ## Taking -/

theorem Runs.bindTake (notOver : kind ≠ .endOfInput)
    (goesOn : ∀ (token : Token) (middle : Kind), token.lexeme.kind = kind →
      (second token).Runs middle token.span
        (fun taken next result => post (token :: taken) next result)
        (fun words => viable (token.lexeme :: words))) :
    (take >>= second).Runs kind last post viable := by
  rintro here rfl _
  obtain ⟨token, rest, tokens⟩ := tokens_of_kind rfl notOver
  refine (RunsAt.take tokens).bind (fun _ isViable => isViable) ?_
  rintro _ _ next leaves ⟨rfl, rfl⟩
  exact goesOn _ _ (Cursor.kind_of_tokens tokens).symm next rfl leaves.last

theorem Runs.bindAccept {second : Bool → Parser β} (notOver : wanted ≠ .endOfInput)
    (accepted : ∀ (token : Token) (middle : Kind), token.lexeme.kind = kind → kind = wanted →
      (second true).Runs middle token.span
        (fun taken next result => post (token :: taken) next result)
        (fun words => viable (token.lexeme :: words)))
    (refused : kind ≠ wanted → (second false).Runs kind last post viable) :
    (accept wanted >>= second).Runs kind last post viable := by
  rw [accept, bind_assoc]
  refine .bindNext ?_
  by_cases same : kind = wanted
  · rw [beq_iff_eq.mpr same, if_pos rfl, bind_assoc]
    refine .bindTake (by rw [same]; exact notOver) fun token middle isKind => ?_
    rw [pure_bind]
    exact accepted token middle isKind same
  · rw [beq_eq_false_iff_ne.mpr same, if_neg Bool.false_ne_true, pure_bind]
    exact refused same

theorem Runs.bindExpect {expected : Expectation} (notOver : wanted ≠ .endOfInput)
    (missing : kind ≠ wanted → viable [])
    (goesOn : ∀ (token : Token) (middle : Kind), token.lexeme.kind = kind → kind = wanted →
      (second token).Runs middle token.span
        (fun taken next result => post (token :: taken) next result)
        (fun words => viable (token.lexeme :: words))) :
    (expect wanted expected >>= second).Runs kind last post viable := by
  rw [expect, bind_assoc]
  refine .bindNext ?_
  by_cases same : kind = wanted
  · rw [beq_iff_eq.mpr same, if_pos rfl]
    exact .bindTake (by rw [same]; exact notOver) fun token middle isKind =>
      goesOn token middle isKind same
  · rw [beq_eq_false_iff_ne.mpr same, if_neg Bool.false_ne_true]
    have rejects : (reject expected : Parser Token).Runs kind last (fun _ _ _ => False) viable :=
      runs_reject (missing same)
    exact rejects.bind (fun _ isViable => isViable) fun _ _ _ _ never => never.elim

/-! ## Loops -/

section Loops

variable {select : Token → Option γ} {body : β → γ → Parser β} {value : β} {choice : γ}

theorem run_foldWhile_round (tokens : here.tokens = token :: rest)
    (selected : select token = some choice) :
    (foldWhile select body value).run here =
      (take >>= fun _ => body value choice >>= foldWhile select body).run here := by
  rw [run_foldWhile, run_bind, take]
  simp only [tokens, selected, run_bind]

/-- What a round of a loop keeps holds when the loop is over, and of the tokens before the round in
which it fails. The token before which it stops is one that it does not select. The invariant speaks
of the tokens taken before, the kind of the token ahead and the value. -/
theorem runs_foldWhile (invariant : List Token → Kind → β → Prop) (viable : List Lexeme → Prop)
    (front : List Token)
    (round : ∀ (front : List Token) (token : Token) (value : β) (choice : γ) (middle : Kind),
      select token = some choice → invariant front token.kind value →
        (body value choice).Runs middle token.span
          (fun taken next result => invariant (front ++ token :: taken) next result)
          (fun words => viable (front.map Token.lexeme ++ token.lexeme :: words)))
    (holds : invariant front kind value) :
    (foldWhile select body value).Runs kind last
      (fun taken next result => invariant (front ++ taken) next result ∧
        (next = .endOfInput ∨ ∃ token : Token, token.kind = next ∧ select token = none))
      (fun words => viable (front.map Token.lexeme ++ words)) := by
  rintro here rfl -
  induction here using Cursor.taken_induction generalizing front value with
  | step here ih =>
    cases tokens : here.tokens with
    | nil =>
      have isOver : here.kind = .endOfInput := by
        rw [Cursor.kind, Cursor.words, tokens]
        rfl
      cases ends : here.atEnd with
      | error failure =>
        refine .ofBroken ?_ (broken_of_atEnd ends)
        rw [run_foldWhile]
        simp only [tokens, ends]
      | ok token =>
        refine .done ⟨by rwa [List.append_nil], .inl isOver⟩ ?_ fun there alike => ?_
        · rw [run_foldWhile]
          simp only [tokens, ends]
        · obtain ⟨first, rest, -, same, -⟩ := alike.first
          simp [tokens] at same
    | cons token rest =>
      have sameKind := Cursor.kind_of_tokens tokens
      cases selected : select token with
      | none =>
        have stays : ∀ {there : Cursor} {others : List Token}, there.tokens = token :: others →
            (foldWhile select body value).run there = .ok (value, there) := by
          intro there others isThere
          rw [run_foldWhile]
          simp only [isThere, selected]
        refine .done ⟨by rwa [List.append_nil], .inr ⟨token, sameKind.symm, selected⟩⟩ (stays tokens)
          fun there alike => ?_
        obtain ⟨first, _, others, isHere, isThere⟩ := alike.first
        obtain ⟨rfl, -⟩ := List.cons.inj (tokens.symm.trans isHere)
        exact stays isThere
      | some choice =>
        refine RunsAt.congr (RunsAt.bind (RunsAt.take tokens) (fun _ isViable => isViable) ?_)
          (run_foldWhile_round tokens selected) fun there alike => ?_
        · rintro _ _ behind taking ⟨rfl, rfl⟩
          have known := round front _ value choice behind.kind selected (sameKind ▸ holds)
          refine (known behind rfl taking.last).bind (fun _ isViable => isViable) ?_
          intro taken result between leaves kept
          have isTail : between.tokens <:+ behind.tokens := ⟨taken, leaves.tokens.symm⟩
          refine (ih _ _ between taking.tokens isTail _ kept).weaken ?_ fun words isViable => ?_
          · intro more next found _ final
            simpa using final
          · simpa using isViable
        · obtain ⟨first, _, others, isHere, isThere⟩ := alike.first
          obtain ⟨rfl, -⟩ := List.cons.inj (tokens.symm.trans isHere)
          exact run_foldWhile_round isThere selected

/-- What a loop keeps, without what it stops at. -/
theorem runs_loop (invariant : List Token → Kind → β → Prop) (viable : List Lexeme → Prop)
    (front : List Token)
    (round : ∀ (front : List Token) (token : Token) (value : β) (choice : γ) (middle : Kind),
      select token = some choice → invariant front token.kind value →
        (body value choice).Runs middle token.span
          (fun taken next result => invariant (front ++ token :: taken) next result)
          (fun words => viable (front.map Token.lexeme ++ token.lexeme :: words)))
    (holds : invariant front kind value) :
    (foldWhile select body value).Runs kind last
      (fun taken next result => invariant (front ++ taken) next result)
      (fun words => viable (front.map Token.lexeme ++ words)) :=
  (runs_foldWhile invariant viable front round holds).weaken (fun _ _ _ _ kept => kept.1)
    fun _ isViable => isViable

end Loops

theorem eq_of_ofKind {token choice : Token} (selected : ofKind wanted token = some choice) :
    token.kind = wanted ∧ choice = token := by
  unfold ofKind at selected
  split at selected
  · rename_i same
    exact ⟨beq_iff_eq.mp same, (Option.some.inj selected).symm⟩
  · contradiction

theorem ne_of_ofKind {token : Token} (unselected : ofKind wanted token = none) :
    token.kind ≠ wanted := by
  intro same
  simp [ofKind, same] at unselected

theorem Runs.bindBreaks {second : Unit → Parser β}
    (goesOn : ∀ breaks middle, leading middle (breaks.map Token.lexeme) = kind →
      Breaks (breaks.map Token.lexeme) →
        (second ()).Runs middle (endSpan last breaks)
          (fun taken next result => post (breaks ++ taken) next result)
          (fun words => viable (breaks.map Token.lexeme ++ words))) :
    (skipLineBreaks >>= second).Runs kind last post viable := by
  have skips := @runs_foldWhile _ _ kind last _ (fun _ _ => return ()) ()
    (fun taken _ _ => Breaks (taken.map Token.lexeme)) (fun _ => False) [] (by
      intro front token _ choice middle selected breaks
      refine .pure ?_
      rw [List.map_append]
      refine breaks.append fun word member => ?_
      rw [List.mem_singleton.mp member]
      exact (eq_of_ofKind selected).1) .nil
  exact skips.bind (fun _ never => never.elim) fun breaks middle _ leads areBreaks =>
    goesOn breaks middle leads areBreaks.1

end Parser

end Parlance
