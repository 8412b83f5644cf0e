import Parlance.Proofs.Grammar.Relocation
import Parlance.Proofs.Grammar.Running

/-!
Contract: two runs of a parser over tokens that differ only in their places.

A parser cannot tell where a token stands. If a second row shows the same tokens at other places, as
far as the first run looks, the second run does what the first does, with every span moved:
`Retraces`. Two things are counted with it. A run that succeeds has looked no further than the token
behind what it took, and a run that fails has looked at a first few tokens and no others. So what
stands behind these tokens does not matter, be it more tokens, a fault, or the end of the input.
Nor does it matter what stands behind an end of the input that is one of the second row's tokens,
since no step takes a token that says that the input is over.

Owns: the judgement, and one rule for each of the steps that parsers are made of. The span of the
token taken last is on a cursor from the start, before any token has been taken. `settled` says that
it has been moved as well; taking a token settles it. Does not own: the rules of the grammar.
-/

namespace Parlance

open Relocatable

/-! ## Cursors -/

/-- As far as `count` tokens ahead, or to the end if it comes before, the second row shows what the
first does, at other places. Where the first row is over, the second is over too, or goes on behind
a token that says that it is over. -/
inductive Ahead (change : Relocation) :
    Nat → List Token → Ending → List Token → Ending → Prop where
  | unseen {tokens others : List Token} {ending other : Ending} :
      Ahead change 0 tokens ending others other
  | ended {count : Nat} {ending : Ending} :
      Ahead change count [] ending [] (ending.relocate change)
  | stopped {count : Nat} {span : Span} {others : List Token} {other : Ending} :
      Ahead change count [] (.finished span) (.endOfInput (change.place span) :: others) other
  | token {count : Nat} {token : Token} {tokens others : List Token} {ending other : Ending}
      (more : Ahead change count tokens ending others other) :
      Ahead change (count + 1) (token :: tokens) ending (relocate change token :: others) other

/-- A row that is moved as a whole shows all of it. -/
theorem Ahead.all (change : Relocation) (count : Nat) (tokens : List Token) (ending : Ending) :
    Ahead change count tokens ending (relocate change tokens) (ending.relocate change) := by
  induction tokens generalizing count with
  | nil => exact .ended
  | cons token tokens ih =>
    cases count with
    | zero => exact .unseen
    | succ count => exact .token (ih count)

/-- A row of which the first tokens are moved shows these, whatever stands behind them. -/
theorem Ahead.front (change : Relocation) (front tokens others : List Token)
    (ending other : Ending) :
    Ahead change front.length (front ++ tokens) ending (relocate change front ++ others) other := by
  induction front with
  | nil => exact .unseen
  | cons token front ih => exact .token ih

/-- A row that is over shows all of one that goes on behind the end of the input. -/
theorem Ahead.beyond (change : Relocation) (count : Nat) (tokens others : List Token) (span : Span)
    (other : Ending) :
    Ahead change count tokens (.finished span)
      (relocate change tokens ++ .endOfInput (change.place span) :: others) other := by
  induction tokens generalizing count with
  | nil => exact .stopped
  | cons token tokens ih =>
    cases count with
    | zero => exact .unseen
    | succ count => exact .token (ih count)

namespace Cursor

/-- The second cursor shows what the first does for `count` tokens, and if that is `settled`, the
token taken last stands at the new place as well. -/
structure Shows (change : Relocation) (settled : Bool) (count : Nat)
    (here there : Cursor) : Prop where
  ahead : Ahead change count here.tokens here.ending there.tokens there.ending
  last : settled = true → there.last = change.place here.last

variable {failure : Failure} {token : Token} {reach : Nat}
variable {change : Relocation} {settled : Bool} {count : Nat} {here there : Cursor}

theorem peek_of_nil (nothing : here.tokens = []) : here.peek = here.atEnd := by
  rw [Cursor.peek, nothing]

theorem Shows.of_cons {rest : List Token} (shows : here.Shows change settled count there)
    (sees : 0 < count) (tokens : here.tokens = token :: rest) :
    ∃ others, there.tokens = relocate change token :: others ∧
      (here.behind token rest).Shows change true (count - 1)
        (there.behind (relocate change token) others) := by
  obtain ⟨otherTokens, ending, last⟩ := there
  have ahead := shows.ahead
  rw [tokens] at ahead
  cases ahead with
  | unseen => exact absurd sees (Nat.lt_irrefl 0)
  | token more =>
    refine ⟨_, rfl, ?_, fun _ => rfl⟩
    rw [Nat.add_sub_cancel]
    exact more

/-- Where the first row is over, the second shows what stands at its end. -/
theorem Shows.atEnd (shows : here.Shows change settled count there) (sees : 0 < count)
    (nothing : here.tokens = []) :
    there.peek = relocate change here.atEnd := by
  obtain ⟨tokens, ending, last⟩ := here
  obtain ⟨otherTokens, otherEnding, otherLast⟩ := there
  have ahead := shows.ahead
  dsimp only at ahead nothing
  subst nothing
  cases ahead with
  | unseen => exact absurd sees (Nat.lt_irrefl 0)
  | ended => cases ending <;> rfl
  | stopped => rfl

theorem Shows.peek (shows : here.Shows change settled count there) (sees : 0 < count) :
    there.peek = relocate change here.peek := by
  cases tokens : here.tokens with
  | nil => rw [peek_of_nil tokens, shows.atEnd sees tokens]
  | cons token rest =>
    obtain ⟨others, same, -⟩ := shows.of_cons sees tokens
    simp only [Cursor.peek, tokens, same]
    rfl

/-- Before a token and two tokens ahead, the second token is shown as well. -/
theorem Shows.peekSecond (shows : here.Shows change settled count there) (sees : 1 < count)
    (inside : here.tokens ≠ []) :
    there.peekSecond = relocate change here.peekSecond := by
  obtain ⟨token, rest, tokens⟩ := List.exists_cons_of_ne_nil inside
  obtain ⟨others, same, behind⟩ := shows.of_cons (Nat.zero_lt_of_lt sees) tokens
  rw [peekSecond_of_cons tokens, peekSecond_of_cons same]
  exact behind.peek (Nat.sub_pos_of_lt sees)

theorem first_of_peek {cause : Failure} (seen : here.peek = .ok token)
    (isBroken : here.ending = .broken cause) :
    0 < here.tokens.length := by
  cases tokens : here.tokens with
  | nil => simp [Cursor.peek, tokens, Cursor.atEnd, isBroken] at seen
  | cons first rest => exact Nat.zero_lt_succ _

theorem second_of_peekSecond {cause : Failure} (seen : here.peekSecond = .ok token)
    (isBroken : here.ending = .broken cause) :
    1 < here.tokens.length := by
  unfold Cursor.peekSecond at seen
  split at seen
  · rename_i first second rest tokens
    simp [tokens]
  · simp [Cursor.atEnd, isBroken] at seen

/-- A failure of which `reach` tokens ahead are the reason is the fault that stops the tokens, or
else one of the grammar, at a token before that fault. -/
def Blames (here : Cursor) (reach : Nat) (failure : Failure) : Prop :=
  here.ending = .broken failure ∨
    failure.fault.stage = .grammatical ∧
      ∀ cause, here.ending = .broken cause → reach < here.tokens.length

theorem Blames.before {between : Cursor} {passed : Nat} (sameEnding : between.ending = here.ending)
    (length : here.tokens.length = passed + between.tokens.length)
    (blames : between.Blames reach failure) :
    here.Blames (passed + reach) failure := by
  unfold Blames at blames ⊢
  rw [sameEnding] at blames
  rcases blames with isBroken | ⟨isGrammatical, early⟩
  · exact .inl isBroken
  · refine .inr ⟨isGrammatical, fun cause isBroken => ?_⟩
    have inside := early cause isBroken
    omega

end Cursor

/-! ## The judgement -/

namespace Parser

variable {α β γ : Type} [Relocatable α] [Relocatable β] [Relocatable γ]
variable {change : Relocation} {kind : Kind} {settled taking : Bool}
variable {here : Cursor} {left right parser : Parser α} {wanted : Kind} {value : α}
variable {leftThen rightThen : α → Parser β}

/-- From here, the second parser does elsewhere what the first does here, as far as the first looks.
`taking` says that the first takes a token if it succeeds. -/
structure RetracesAt (change : Relocation) (settled taking : Bool) (here : Cursor)
    (left right : Parser α) : Prop where
  ok : ∀ value next, left.run here = .ok (value, next) →
    ∃ passed, here.tokens.length = passed + next.tokens.length ∧ (taking = true → 0 < passed) ∧
      ∀ count there, here.Shows change settled count there → passed < count →
        ∃ behind, right.run there = .ok (relocate change value, behind) ∧
          there.tokens.length = passed + behind.tokens.length ∧
          next.Shows change (taking || settled) (count - passed) behind
  error : ∀ failure, left.run here = .error failure →
    ∃ reach, here.Blames reach failure ∧
      ∀ count there, here.Shows change settled count there → reach < count →
        right.run there = .error (relocate change failure)

/-- The second parser does so from every place before a word of the given kind. -/
def Retraces (change : Relocation) (kind : Kind) (settled taking : Bool)
    (left right : Parser α) : Prop :=
  ∀ here, here.kind = kind → left.RetracesAt change settled taking here right

theorem Retraces.pure {other : α} (same : other = relocate change value) :
    (pure value : Parser α).Retraces change kind settled false (pure other) := by
  subst same
  intro here _
  constructor
  · intro result next run
    rw [run_pure] at run
    cases run
    refine ⟨0, by rw [Nat.zero_add], fun taken => (by cases taken), fun count there shows _ => ?_⟩
    exact ⟨there, rfl, by rw [Nat.zero_add], shows⟩
  · intro failure run
    cases run

/-- One step after another, the second from where the first ends. -/
theorem RetracesAt.sequence {takingThen : Bool}
    (first : left.RetracesAt change settled taking here right)
    (second : ∀ value between, left.run here = .ok (value, between) →
      (leftThen value).RetracesAt change (taking || settled) takingThen between
        (rightThen (relocate change value))) :
    (left >>= leftThen).RetracesAt change settled (taking || takingThen) here
      (right >>= rightThen) := by
  constructor
  · intro result next run
    rw [run_bind] at run
    cases outcome : left.run here with
    | error failure => simp [outcome] at run
    | ok reply =>
      obtain ⟨value, between⟩ := reply
      simp only [outcome] at run
      obtain ⟨passed, length, takes, follows⟩ := first.ok value between outcome
      obtain ⟨more, moreLength, takesMore, goesOn⟩ :=
        (second value between outcome).ok result next run
      refine ⟨passed + more, by omega, fun taken => ?_, fun count there shows far => ?_⟩
      · rcases Bool.or_eq_true_iff.mp taken with taken | taken
        · have positive := takes taken
          omega
        · have positive := takesMore taken
          omega
      · obtain ⟨middle, firstRun, middleLength, middleShows⟩ :=
          follows count there shows (by omega)
        obtain ⟨behind, secondRun, behindLength, behindShows⟩ :=
          goesOn (count - passed) middle middleShows (by omega)
        refine ⟨behind, by simp only [run_bind, firstRun, secondRun], by omega, ?_⟩
        have sameFlag : (taking || takingThen || settled) = (takingThen || (taking || settled)) := by
          rw [Bool.or_comm taking, Bool.or_assoc]
        rw [Nat.sub_add_eq, sameFlag]
        exact behindShows
  · intro failure run
    rw [run_bind] at run
    cases outcome : left.run here with
    | error cause =>
      simp only [outcome, Except.error.injEq] at run
      subst run
      obtain ⟨reach, blames, follows⟩ := first.error cause outcome
      refine ⟨reach, blames, fun count there shows far => ?_⟩
      simp only [run_bind, follows count there shows far]
    | ok reply =>
      obtain ⟨value, between⟩ := reply
      simp only [outcome] at run
      obtain ⟨passed, length, -, follows⟩ := first.ok value between outcome
      obtain ⟨reach, blames, goesOn⟩ := (second value between outcome).error failure run
      have sameEnding : between.ending = here.ending := (left.leads _ _ _ outcome).ending
      refine ⟨passed + reach, blames.before sameEnding length, fun count there shows far => ?_⟩
      obtain ⟨middle, firstRun, -, middleShows⟩ := follows count there shows (by omega)
      have fails := goesOn (count - passed) middle middleShows (by omega)
      simp only [run_bind, firstRun, fails]

/-- One step after another, the first of which may take nothing. -/
theorem Retraces.andThen (first : left.Retraces change kind settled false right)
    (second : ∀ value middle, (leftThen value).Retraces change middle settled taking
      (rightThen (relocate change value))) :
    (left >>= leftThen).Retraces change kind settled taking (right >>= rightThen) :=
  fun here isKind => (first here isKind).sequence fun value between _ => second value _ between rfl

theorem Retraces.bind (first : left.Retraces change kind settled true right)
    (second : ∀ value middle, (leftThen value).Retraces change middle true taking
      (rightThen (relocate change value))) :
    (left >>= leftThen).Retraces change kind settled true (right >>= rightThen) :=
  fun here isKind => (first here isKind).sequence fun value between _ => second value _ between rfl

theorem RetracesAt.loosen (retraces : left.RetracesAt change settled true here right) :
    left.RetracesAt change settled taking here right := by
  constructor
  · intro value next run
    obtain ⟨passed, length, takes, follows⟩ := retraces.ok value next run
    refine ⟨passed, length, fun _ => takes rfl, fun count there shows far => ?_⟩
    obtain ⟨behind, sameRun, behindLength, behindShows⟩ := follows count there shows far
    exact ⟨behind, sameRun, behindLength, behindShows.ahead, fun _ => behindShows.last rfl⟩
  · exact retraces.error

theorem Retraces.loosen (retraces : left.Retraces change kind settled true right) :
    left.Retraces change kind settled taking right :=
  fun here isKind => (retraces here isKind).loosen

theorem Retraces.branch {condition : Prop} [Decidable condition] {left' right' : Parser α}
    (holds : condition → left.Retraces change kind settled taking left')
    (fails : ¬ condition → right.Retraces change kind settled taking right') :
    (if condition then left else right).Retraces change kind settled taking
      (if condition then left' else right') := by
  split
  · exact holds ‹_›
  · exact fails ‹_›

/-! ### Looking -/

theorem tokens_ne_nil (isKind : here.kind = kind) (notOver : kind ≠ .endOfInput) :
    here.tokens ≠ [] := by
  obtain ⟨token, rest, tokens⟩ := tokens_of_kind isKind notOver
  rw [tokens]
  exact List.cons_ne_nil token rest

theorem run_look_bind {ι κ : Type} (view : Cursor → Except Failure ι) (parser : ι → Parser κ)
    (here : Cursor) :
    (look view >>= parser).run here =
      match view here with
      | .error failure => .error failure
      | .ok seen => (parser seen).run here := by
  rw [run_bind, look]
  dsimp only
  cases view here <;> rfl

/-- A look at the token `ahead` of the next one, behind which that many tokens are taken. -/
theorem RetracesAt.bindLook {view : Cursor → Except Failure Token} {ahead : Nat}
    {leftThen rightThen : Token → Parser β}
    (sees : ∀ count there, here.Shows change settled count there → ahead < count →
      view there = relocate change (view here))
    (faulty : ∀ failure, view here = .error failure → here.ending = .broken failure)
    (inside : ∀ token cause, view here = .ok token → here.ending = .broken cause →
      ahead < here.tokens.length)
    (takes : ∀ passed, (taking = true → 0 < passed) → ahead ≤ passed)
    (goesOn : ∀ token, view here = .ok token →
      (leftThen token).RetracesAt change settled taking here (rightThen (relocate change token))) :
    (look view >>= leftThen).RetracesAt change settled taking here (look view >>= rightThen) := by
  cases seen : view here with
  | error cause =>
    constructor
    · intro result next run
      rw [run_look_bind, seen] at run
      cases run
    · intro failure run
      simp only [run_look_bind, seen, Except.error.injEq] at run
      subst run
      refine ⟨ahead, .inl (faulty cause seen), fun count there shows far => ?_⟩
      rw [run_look_bind, sees count there shows far, seen]
      rfl
  | ok token =>
    have known := goesOn token seen
    have moved : ∀ count there, here.Shows change settled count there → ahead < count →
        (look view >>= rightThen).run there = (rightThen (relocate change token)).run there := by
      intro count there shows far
      rw [run_look_bind, sees count there shows far, seen]
      rfl
    constructor
    · intro result next run
      simp only [run_look_bind, seen] at run
      obtain ⟨passed, length, isTaking, follows⟩ := known.ok result next run
      refine ⟨passed, length, isTaking, fun count there shows far => ?_⟩
      rw [moved count there shows (Nat.lt_of_le_of_lt (takes passed isTaking) far)]
      exact follows count there shows far
    · intro failure run
      simp only [run_look_bind, seen] at run
      obtain ⟨reach, blames, follows⟩ := known.error failure run
      refine ⟨max reach ahead, ?_, fun count there shows far => ?_⟩
      · refine blames.imp_right fun known => ⟨known.1, fun cause isBroken => ?_⟩
        exact Nat.max_lt.mpr ⟨known.2 cause isBroken, inside token cause seen isBroken⟩
      · rw [moved count there shows (by omega)]
        exact follows count there shows (by omega)

theorem RetracesAt.bindPeek {leftThen rightThen : Token → Parser β}
    (goesOn : ∀ token, here.peek = .ok token →
      (leftThen token).RetracesAt change settled taking here (rightThen (relocate change token))) :
    (peek >>= leftThen).RetracesAt change settled taking here (peek >>= rightThen) :=
  .bindLook (fun _ _ shows sees => shows.peek sees) (fun _ => broken_of_peek)
    (fun _ _ => Cursor.first_of_peek) (fun _ _ => Nat.zero_le _) goesOn

theorem Retraces.bindPeek {leftThen rightThen : Token → Parser β}
    (goesOn : ∀ token : Token, token.kind = kind →
      (leftThen token).Retraces change kind settled taking (rightThen (relocate change token))) :
    (peek >>= leftThen).Retraces change kind settled taking (peek >>= rightThen) :=
  fun here isKind => .bindPeek fun token seen =>
    goesOn token ((Cursor.kind_of_peek seen).trans isKind) here isKind

theorem Retraces.bindNext {leftThen rightThen : Bool → Parser β}
    (goesOn : (leftThen (kind == wanted)).Retraces change kind settled taking
      (rightThen (kind == wanted))) :
    (next wanted >>= leftThen).Retraces change kind settled taking (next wanted >>= rightThen) := by
  rw [next, bind_assoc, bind_assoc]
  apply Retraces.bindPeek
  intro token sameKind
  rw [pure_bind, pure_bind, relocate_kind, sameKind]
  exact goesOn

/-- A parser that stands before a token, looks at the second one and then takes the first has looked
no further than the token behind what it took. -/
theorem RetracesAt.bindPeekSecond {leftThen rightThen : Token → Parser β}
    (inside : here.tokens ≠ []) (goesOn : ∀ token, here.peekSecond = .ok token →
      (leftThen token).RetracesAt change settled true here (rightThen (relocate change token))) :
    (peekSecond >>= leftThen).RetracesAt change settled true here (peekSecond >>= rightThen) :=
  .bindLook (fun _ _ shows sees => shows.peekSecond sees inside) (fun _ => broken_of_peekSecond)
    (fun _ _ => Cursor.second_of_peekSecond) (fun _ isTaking => isTaking rfl) goesOn

/-- The span up to the token taken last is moved once that token is settled. -/
theorem Retraces.bindSpan {start other : Span} {leftThen rightThen : Span → Parser β}
    (sameStart : other = change.place start) (goesOn : ∀ span,
      (leftThen span).Retraces change kind true taking (rightThen (change.place span))) :
    (spanFrom start >>= leftThen).Retraces change kind true taking
      (spanFrom other >>= rightThen) := by
  subst sameStart
  have moved : ∀ {count : Nat} {here there : Cursor}, here.Shows change true count there →
      (spanFrom (change.place start) >>= rightThen).run there =
        (rightThen (change.place (start.through here.last))).run there := by
    intro count here there shows
    rw [change.through, ← shows.last rfl]
    rfl
  intro here isKind
  constructor
  · intro result next run
    obtain ⟨passed, length, takes, follows⟩ := (goesOn _ here isKind).ok result next run
    refine ⟨passed, length, takes, fun count there shows far => ?_⟩
    rw [moved shows]
    exact follows count there shows far
  · intro failure run
    obtain ⟨reach, blames, follows⟩ := (goesOn _ here isKind).error failure run
    refine ⟨reach, blames, fun count there shows far => ?_⟩
    rw [moved shows]
    exact follows count there shows far

/-! ### Failing -/

/-- Where the next token was looked at, both parsers fail alike. -/
theorem RetracesAt.fail {token : Token} {fault other : Fault} {span place : Span}
    (seen : here.peek = .ok token) (isGrammatical : fault.stage = .grammatical)
    (sameFault : other = fault.relocate change) (sameSpan : place = change.place span) :
    (fail fault span : Parser α).RetracesAt change settled taking here (fail other place) := by
  subst sameFault sameSpan
  refine ⟨fun _ _ run => (by cases run), ?_⟩
  rintro _ ⟨⟩
  exact ⟨0, .inr ⟨isGrammatical, fun _ => Cursor.first_of_peek seen⟩, fun _ _ _ _ => rfl⟩

theorem retraces_fail {fault : Fault} {span place : Span} (notOver : kind ≠ .endOfInput)
    (isGrammatical : fault.stage = .grammatical) (sameFault : fault = fault.relocate change)
    (sameSpan : place = change.place span) :
    (fail fault span : Parser α).Retraces change kind settled taking (fail fault place) := by
  intro here isKind
  obtain ⟨token, rest, tokens⟩ := tokens_of_kind isKind notOver
  have seen : here.peek = .ok token := by simp [Cursor.peek, tokens]
  exact .fail seen isGrammatical sameFault sameSpan

/-- A parser that fails at the next token, for a reason that may depend on it. -/
theorem retraces_failAt (fault : Token → Fault)
    (isGrammatical : ∀ token, (fault token).stage = .grammatical)
    (sameFault : ∀ token, fault (relocate change token) = (fault token).relocate change) :
    (peek >>= fun token => fail (fault token) token.span : Parser α).Retraces change kind settled
      taking (peek >>= fun token => fail (fault token) token.span) :=
  fun _ _ => .bindPeek fun token seen =>
    .fail seen (isGrammatical token) (sameFault token) rfl

theorem retraces_reject {wanted : Expectation} :
    (reject wanted : Parser α).Retraces change kind settled taking (reject wanted) :=
  retraces_failAt (fun token => .unexpected wanted token) (fun _ => rfl) fun _ => rfl

/-! ### Taking -/

/-- Before a word that is not the end of the input, that word is taken. -/
theorem retraces_take (notOver : kind ≠ .endOfInput) :
    take.Retraces change kind settled true take := by
  intro here isKind
  obtain ⟨token, rest, tokens⟩ := tokens_of_kind isKind notOver
  constructor
  · intro value next run
    simp only [take, tokens, Except.ok.injEq, Prod.mk.injEq] at run
    obtain ⟨rfl, rfl⟩ := run
    refine ⟨1, by simp [tokens, Cursor.behind, Nat.add_comm], fun _ => Nat.zero_lt_one,
      fun count there shows far => ?_⟩
    obtain ⟨others, same, behindShows⟩ := shows.of_cons (by omega) tokens
    refine ⟨_, by simp only [take, same], by simp [same, Cursor.behind, Nat.add_comm], behindShows⟩
  · intro failure run
    simp [take, tokens] at run

theorem Retraces.bindAccept {leftThen rightThen : Bool → Parser β} {takingThen : Bool}
    (notOver : wanted ≠ .endOfInput)
    (accepted : ∀ middle, (leftThen true).Retraces change middle true takingThen (rightThen true))
    (refused : kind ≠ wanted →
      (leftThen false).Retraces change kind settled taking (rightThen false)) :
    (accept wanted >>= leftThen).Retraces change kind settled taking
      (accept wanted >>= rightThen) := by
  rw [accept, bind_assoc, bind_assoc]
  apply Retraces.bindNext
  by_cases same : kind = wanted
  · rw [beq_iff_eq.mpr same, if_pos rfl, bind_assoc, bind_assoc]
    have taken : take.Retraces change kind settled true take :=
      retraces_take (by rw [same]; exact notOver)
    exact (taken.bind fun _ middle => accepted middle).loosen
  · rw [beq_eq_false_iff_ne.mpr same, if_neg Bool.false_ne_true, pure_bind, pure_bind]
    exact refused same

theorem retraces_expect {expected : Expectation} (notOver : wanted ≠ .endOfInput) :
    (expect wanted expected).Retraces change kind settled true (expect wanted expected) := by
  apply Retraces.bindNext
  by_cases same : kind = wanted
  · rw [beq_iff_eq.mpr same, if_pos rfl]
    exact retraces_take (by rw [same]; exact notOver)
  · rw [beq_eq_false_iff_ne.mpr same, if_neg Bool.false_ne_true]
    exact retraces_reject

/-! ### Loops -/

omit [Relocatable β] [Relocatable γ] in
/-- A loop that does not select the end of the input looks at the next token, and if it selects it,
takes it, runs the body and starts again. -/
theorem foldWhile_eq {select : Token → Option γ}
    (unselected : ∀ token : Token, token.kind = .endOfInput → select token = none)
    (body : β → γ → Parser β) (value : β) :
    foldWhile select body value = peek >>= fun token =>
      match select token with
      | none => pure value
      | some choice => take >>= fun _ => body value choice >>= foldWhile select body := by
  apply eq_of_run_eq
  intro here
  rw [run_foldWhile, peek, run_look_bind]
  cases tokens : here.tokens with
  | nil =>
    rw [Cursor.peek_of_nil tokens, Cursor.atEnd]
    cases here.ending with
    | broken failure => rfl
    | finished span =>
      simp only [unselected (.endOfInput span) rfl]
      rfl
  | cons token rest =>
    simp only [Cursor.peek, tokens]
    cases select token with
    | none => rfl
    | some choice =>
      simp only [run_bind, take, tokens]

/-- A loop is retraced if its rounds are, and if it selects a token wherever it stands, but not the
end of the input. -/
theorem retraces_foldWhile {select : Token → Option γ} {body : β → γ → Parser β}
    (selects : ∀ token, select (relocate change token) = (select token).map (relocate change))
    (unselected : ∀ token : Token, token.kind = .endOfInput → select token = none)
    (round : ∀ value choice middle, (body value choice).Retraces change middle true false
      (body (relocate change value) (relocate change choice))) (value : β) :
    (foldWhile select body value).Retraces change kind settled false
      (foldWhile select body (relocate change value)) := by
  intro here isKind
  clear isKind
  induction here using Cursor.taken_induction generalizing value settled with
  | step here ih =>
    rw [foldWhile_eq unselected, foldWhile_eq unselected]
    apply RetracesAt.bindPeek
    intro token seen
    rw [selects]
    cases selected : select token with
    | none => exact Retraces.pure rfl here rfl
    | some choice =>
      have notOver : here.kind ≠ .endOfInput := by
        rw [← Cursor.kind_of_peek seen]
        intro isOver
        rw [unselected token isOver] at selected
        cases selected
      apply RetracesAt.loosen
      apply (retraces_take notOver here rfl).sequence
      intro _ between taken
      apply (round value choice _ between rfl).sequence
      intro middle next roundRun
      have leads := (body value choice).leads _ _ _ roundRun
      obtain ⟨first, rest, tokens⟩ := tokens_of_kind rfl notOver
      simp only [take, tokens, Except.ok.injEq, Prod.mk.injEq] at taken
      rw [← taken.2] at leads
      exact ih first rest next tokens leads.tokens middle

theorem retraces_whileKind {body : β → Token → Parser β} (notOver : wanted ≠ .endOfInput)
    (round : ∀ value choice middle, (body value choice).Retraces change middle true false
      (body (relocate change value) (relocate change choice))) (value : β) :
    (foldWhile (ofKind wanted) body value).Retraces change kind settled false
      (foldWhile (ofKind wanted) body (relocate change value)) := by
  refine retraces_foldWhile (fun token => ?_) (fun token isOver => ?_) round value
  · unfold ofKind
    rw [relocate_kind]
    split <;> rfl
  · exact if_neg fun same => notOver (isOver ▸ (beq_iff_eq.mp same).symm)

theorem retraces_skipLineBreaks :
    skipLineBreaks.Retraces change kind settled false skipLineBreaks := by
  unfold skipLineBreaks
  have round : ∀ (value : Unit) (choice : Token) (middle : Kind),
      (pure () : Parser Unit).Retraces change middle true false (pure ()) :=
    fun _ _ _ => .pure rfl
  exact retraces_whileKind (by decide) round ()

/-! ### Staying -/

theorem relocate_stay_tokens (tokens : List Token) : relocate .stay tokens = tokens :=
  List.map_id tokens

theorem relocate_stay_failure (failure : Failure) : relocate .stay failure = failure := by
  obtain ⟨fault, span⟩ := failure
  cases fault <;> rfl

theorem relocate_stay_ending (ending : Ending) : ending.relocate .stay = ending := by
  cases ending with
  | finished span => rfl
  | broken failure => exact congrArg Ending.broken (relocate_stay_failure failure)

theorem shows_self (count : Nat) (here : Cursor) : here.Shows .stay true count here := by
  have ahead := Ahead.all .stay count here.tokens here.ending
  rw [relocate_stay_tokens, relocate_stay_ending] at ahead
  exact ⟨ahead, fun _ => rfl⟩

/-- At its own place a value that was read is the value, so staying leaves it as it is. -/
theorem RetracesAt.stays {next : Cursor}
    (retraces : parser.RetracesAt .stay true taking here parser)
    (run : parser.run here = .ok (value, next)) :
    relocate .stay value = value := by
  obtain ⟨_, -, -, follows⟩ := retraces.ok value next run
  obtain ⟨_, again, -, -⟩ := follows _ here (shows_self _ here) (Nat.lt_succ_self _)
  rw [run] at again
  exact (congrArg Prod.fst (Except.ok.inj again)).symm

/-- Where the row goes on behind the end of the input, a parser gives what it gives where the row is
over. -/
theorem RetracesAt.beyond {tokens : List Token} {span last : Span}
    (retraces : parser.RetracesAt .stay true taking ⟨tokens, .finished span, last⟩ parser)
    (others : List Token) (ending : Ending) :
    (parser.run ⟨tokens ++ .endOfInput span :: others, ending, last⟩).map Prod.fst =
      (parser.run ⟨tokens, .finished span, last⟩).map Prod.fst := by
  have shows : ∀ count, Cursor.Shows .stay true count ⟨tokens, .finished span, last⟩
      ⟨tokens ++ .endOfInput span :: others, ending, last⟩ := by
    intro count
    have ahead := Ahead.beyond .stay count tokens others span ending
    rw [relocate_stay_tokens] at ahead
    exact ⟨ahead, fun _ => rfl⟩
  cases run : parser.run ⟨tokens, .finished span, last⟩ with
  | ok reply =>
    obtain ⟨value, next⟩ := reply
    obtain ⟨_, -, -, follows⟩ := retraces.ok value next run
    obtain ⟨behind, again, -, -⟩ := follows _ _ (shows _) (Nat.lt_succ_self _)
    rw [again, retraces.stays run]
    rfl
  | error failure =>
    obtain ⟨_, -, follows⟩ := retraces.error failure run
    rw [follows _ _ (shows _) (Nat.lt_succ_self _), relocate_stay_failure]

end Parser

end Parlance
