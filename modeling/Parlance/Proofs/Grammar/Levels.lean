import Parlance.Proofs.Grammar.Onward

/-!
Contract: how the number of levels left bears on what is read.

A parser with fewer levels does what one with more levels does, or fails because it has no level
left. In the second case the parser with more levels reads on from there: it ends, or runs out of
levels itself, at that place or behind it: `Parser.Within fault left right`. Owns: that this holds of
every rule of the grammar if it holds of what is nested, and hence of the grammar with any two
numbers of levels, whatever the limits they are counted for.
-/

namespace Parlance

namespace Parser

variable {α β γ : Type} {fault : Fault}
variable {first left right other : Parser α} {second third : α → Parser β}

/-- From the first cursor on, the parser gets to the second one. -/
structure Reaches (parser : Parser α) (here there : Cursor) : Prop where
  ok : ∀ value next, parser.run here = .ok (value, next) → there.Leads next
  error : ∀ failure, parser.run here = .error failure → there.Faces failure

/-- The parser stops at a token, with the given fault. -/
structure Halts (parser : Parser α) (here : Cursor) (fault : Fault) (there : Cursor)
    (token : Token) : Prop where
  leads : here.Leads there
  seen : there.peek = .ok token
  fails : parser.run here = .error ⟨fault, token.span⟩

/-- At a cursor, the first parser does what the second does, or fails with the given fault at a token
that the second gets to. -/
def Agrees (fault : Fault) (left right : Parser α) (here : Cursor) : Prop :=
  left.run here = right.run here ∨
    ∃ there token, left.Halts here fault there token ∧ right.Reaches here there

/-- Parsers that do at one cursor what others do further on agree if those do. -/
theorem Agrees.back {left' right' : Parser α} {here there : Cursor}
    (agrees : Agrees fault left right there) (sameLeft : left'.run here = left.run there)
    (sameRight : right'.run here = right.run there) (leads : here.Leads there) :
    Agrees fault left' right' here := by
  rcases agrees with same | ⟨place, token, halts, reaches⟩
  · exact .inl (by rw [sameLeft, sameRight, same])
  · refine .inr ⟨place, token, ?_, ?_⟩
    · exact ⟨leads.trans halts.leads, halts.seen, sameLeft ▸ halts.fails⟩
    · exact ⟨sameRight ▸ reaches.ok, sameRight ▸ reaches.error⟩

/-- Two steps agree if the first ones do, and the second ones do where the first succeed. -/
theorem Agrees.bind {here : Cursor} [onwardThird : ∀ value, Onward (third value)]
    (firstAgrees : Agrees fault first other here)
    (secondAgrees : ∀ value between, other.run here = .ok (value, between) →
      Agrees fault (second value) (third value) between) :
    Agrees fault (first >>= second) (other >>= third) here := by
  rcases firstAgrees with same | ⟨there, token, halts, reaches⟩
  · cases outcome : other.run here with
    | error failure => exact .inl (by rw [run_bind, run_bind, same, outcome])
    | ok reply =>
      obtain ⟨value, between⟩ := reply
      refine (secondAgrees value between outcome).back ?_ ?_ (other.leads _ _ _ outcome)
      · rw [run_bind, same, outcome]
      · rw [run_bind, outcome]
  -- Where the first step of the left parser fails, the right one goes on from there.
  · refine .inr ⟨there, token, ⟨halts.leads, halts.seen, by rw [run_bind, halts.fails]⟩, ?_⟩
    constructor
    · intro result next run
      rw [run_bind] at run
      cases outcome : other.run here with
      | error failure => simp [outcome] at run
      | ok reply =>
        simp only [outcome] at run
        exact (reaches.ok _ _ outcome).trans ((third reply.1).leads _ _ _ run)
    · intro failure run
      rw [run_bind] at run
      cases outcome : other.run here with
      | error cause =>
        simp only [outcome, Except.error.injEq] at run
        exact run ▸ reaches.error cause outcome
      | ok reply =>
        simp only [outcome] at run
        exact ((onwardThird reply.1).faces _ _ run).back (reaches.ok _ _ outcome)

/-- The parsers agree at every cursor. -/
structure Within (fault : Fault) (left right : Parser α) : Prop where
  onward : Onward right
  agrees : ∀ here, Agrees fault left right here

theorem Within.run (within : Within fault left right) (here : Cursor) :
    left.run here = right.run here ∨ ∃ span, left.run here = .error ⟨fault, span⟩ := by
  rcases within.agrees here with same | ⟨there, token, halts, -⟩
  · exact .inl same
  · exact .inr ⟨token.span, halts.fails⟩

theorem Within.refl (parser : Parser α) [onward : Onward parser] : Within fault parser parser :=
  ⟨onward, fun _ => .inl rfl⟩

theorem Within.bind (firstWithin : Within fault first other)
    (secondWithin : ∀ value, Within fault (second value) (third value)) :
    Within fault (first >>= second) (other >>= third) := by
  have onwardOther := firstWithin.onward
  have onwardThird := fun value => (secondWithin value).onward
  refine ⟨inferInstance, fun here => ?_⟩
  exact (firstWithin.agrees here).bind fun value between _ => (secondWithin value).agrees between

theorem Within.after [Onward first]
    (secondWithin : ∀ value, Within fault (second value) (third value)) :
    Within fault (first >>= second) (first >>= third) :=
  .bind (.refl first) secondWithin

theorem Within.before [∀ value, Onward (second value)] (firstWithin : Within fault first other) :
    Within fault (first >>= second) (other >>= second) :=
  .bind firstWithin fun value => .refl (second value)

theorem Within.branch {condition : Prop} [Decidable condition] {left' right' : Parser α}
    (leftWithin : Within fault left left') (rightWithin : Within fault right right') :
    Within fault (if condition then left else right) (if condition then left' else right') := by
  split
  · exact leftWithin
  · exact rightWithin

theorem Within.foldWhile {select : Token → Option γ} {body other : β → γ → Parser β}
    (bodyWithin : ∀ value choice, Within fault (body value choice) (other value choice))
    (value : β) :
    Within fault (foldWhile select body value) (foldWhile select other value) := by
  have onwardOther := fun value choice => (bodyWithin value choice).onward
  refine ⟨inferInstance, fun here => ?_⟩
  induction here using Cursor.taken_induction generalizing value with
  | step here ih =>
    cases tokens : here.tokens with
    | nil => exact .inl (by simp only [run_foldWhile, tokens])
    | cons token rest =>
      cases selected : select token with
      | none => exact .inl (by simp only [run_foldWhile, tokens, selected])
      | some choice =>
        have round (step : β → γ → Parser β) :
            (Parser.foldWhile select step value).run here =
              (step value choice >>= Parser.foldWhile select step).run
                (here.behind token rest) := by
          rw [run_foldWhile, run_bind]
          simp only [tokens, selected]
        refine Agrees.back ?_ (round body) (round other) (Cursor.leads_behind tokens)
        refine ((bodyWithin value choice).agrees _).bind fun next between outcome => ?_
        have leads := (other value choice).leads _ _ _ outcome
        exact ih token rest between tokens leads.tokens next

end Parser

namespace Grammar

open Parlance.Parser

/-- What is nested in one grammar stays within what is nested in the other. -/
structure Nested.Within (fault : Fault) (inner outer : Nested) : Prop where
  expression : ∀ line, Parser.Within fault (inner.expression line) (outer.expression line)
  block : ∀ block, Parser.Within fault (inner.block block) (outer.block block)

section Rules

variable {fault : Fault} {inner outer : Nested}

theorem within_listed {α : Type} {bracket : Bracket} {item other : Parser α}
    (itemWithin : Within fault item other) :
    Within fault (listed bracket item) (listed bracket other) := by
  have next : Within fault (nextItem bracket item) (nextItem bracket other) :=
    .after fun _ => .branch (.refl _) (.before itemWithin)
  refine .after fun _ => .bind next fun _ => .before (.foldWhile (fun _ _ => ?_) _)
  exact .after fun _ => .before next

variable (within : inner.Within fault outer)

include within

theorem within_shortStatement (line : Bool) :
    Within fault (shortStatement inner line) (shortStatement outer line) := by
  have assigns : ∀ start target op,
      Within fault (assignment inner start target op) (assignment outer start target op) :=
    fun start target op => .after fun _ => .before (within.expression false)
  refine .after fun token => ?_
  split
  · exact .refl _
  · exact .refl _
  · exact .after fun _ => .after fun _ => .branch (.refl _) (.before (within.expression false))
  · refine .after fun start => .bind (within.expression line) fun value => .after fun divided => ?_
    have plain : Within fault (plainAssignment inner start.span value)
        (plainAssignment outer start.span value) := by
      refine .after fun token => ?_
      cases AssignOp.ofKind? token.kind with
      | none => exact .refl _
      | some op =>
        dsimp only
        cases value.toTarget? with
        | none =>
          have onward : Onward (fail .badTarget value.mark : Parser (Stmt Span)) :=
            onward_fail (by decide) _
          exact .refl (fail .badTarget value.mark)
        | some target => exact assigns _ _ _
    have names : ∀ name, Within fault (namesAssignment inner start.span name)
        (namesAssignment outer start.span name) := by
      refine fun name => .after fun _ => .after fun _ => .after fun token => ?_
      cases AssignOp.ofKind? token.kind with
      | none => exact .refl _
      | some op => exact assigns _ _ _
    cases line && divided with
    | false => cases value <;> exact plain
    | true => cases value <;> first | exact names _ | exact plain

theorem within_primary : Within fault (primary inner) (primary outer) := by
  refine .after fun token => ?_
  split
  case h_6 =>
    refine .after fun _ => .bind (within_listed (within.expression false)) fun _ => ?_
    refine .after fun _ => ?_
    split <;> exact .refl _
  case h_7 =>
    have array : Within fault (listed .square (inner.expression false))
        (listed .square (outer.expression false)) := within_listed (within.expression false)
    have entries : Within fault (entry inner) (entry outer) :=
      .after fun _ => .after fun _ => .before (within.expression false)
    refine .after fun _ => .after fun _ => .after fun _ => .branch (.refl _) ?_
    refine .after fun _ => .branch (.after fun _ => .branch ?_ (.before array)) (.before array)
    exact .before (within_listed entries)
  case h_8 =>
    refine .after fun _ => .after fun _ => .after fun _ => .after fun _ => .branch ?_ ?_
    · exact .after fun _ => .before (within.block _)
    · exact .before (within_shortStatement within false)
  all_goals exact .refl _

theorem within_indexed : Within fault (indexed inner) (indexed outer) := by
  have called : ∀ callee, Within fault (calls inner callee) (calls outer callee) :=
    .foldWhile fun _ _ => .before (within_listed (within.expression false))
  refine .bind (.bind (within_primary within) fun first => ?_) fun owner => ?_
  · exact .bind (called first) (.foldWhile fun _ _ => .after fun _ => called _)
  · exact .foldWhile (fun _ _ => .before (within.expression false)) owner

theorem within_binary (looseness : Nat) :
    Within fault (binary inner looseness) (binary outer looseness) := by
  induction looseness with
  | zero => exact .after fun _ => .before (.after fun _ => .before (within_indexed within))
  | succ looseness ih =>
    exact .bind ih (.foldWhile fun _ _ => .before ih)

theorem within_expression (line : Bool) :
    Within fault (expression inner line) (expression outer line) := by
  refine .after fun _ => .branch ?_ (within_binary within _)
  refine .after fun _ => .bind (within.expression false) fun _ => .after fun _ => .branch ?_ ?_
  · refine .bind (within_shortStatement within line) fun _ => .after fun _ => .branch ?_ (.refl _)
    exact .before (within_shortStatement within line)
  · refine .after fun _ => .bind (within.block _) fun _ => .after fun _ => .branch ?_ (.refl _)
    exact .after fun _ => .before (within.block _)

theorem within_statement : Within fault (statement inner) (statement outer) := by
  have params : Within fault (parameters inner) (parameters outer) :=
    .after fun _ => .before (within_listed (.after fun _ => .after fun _ =>
      .branch (.before (within.expression false)) (.refl _)))
  have closed : ∀ block, Within fault (closedBlock inner block) (closedBlock outer block) :=
    fun block => .before (within.block block)
  refine .after fun token => ?_
  split
  · exact .refl _
  · refine .after fun _ => .after fun _ => .after fun _ => .branch ?_ ?_
    · exact .bind params fun _ => .after fun _ => .before (closed _)
    · exact .after fun _ => .before (closed _)
  · refine .after fun _ => .after fun _ => .after fun _ => .after fun _ => .branch ?_ (.refl _)
    refine .bind params fun _ => .after fun _ => .branch ?_ ?_
    · exact .before (within.expression false)
    · exact .after fun _ => .before (closed _)
  · refine .after fun _ => .after fun _ => .after fun _ =>
      .bind (within.expression false) fun _ => ?_
    exact .after fun _ => .before (closed _)
  · refine .after fun _ => .bind (within.expression false) fun _ => ?_
    exact .after fun _ => .before (closed _)
  · exact within_shortStatement within true

theorem within_block (block : Block) :
    Within fault (Grammar.block inner block) (Grammar.block outer block) := by
  have line : Within fault (blockLine inner block) (blockLine outer block) := by
    refine .after fun _ => ?_
    exact .branch (.refl _) (.branch (.refl _) (.before (within_statement within)))
  exact .bind line (.foldWhile fun _ _ => .before line)

end Rules

/-! ## Running out of levels -/

instance (limit : Limit) (α : Type) : Onward (tooDeep limit : Parser α) where
  faces here failure run := by
    cases seen : here.peek with
    | error cause =>
      simp only [tooDeep, peek, run_bind, look, seen, Except.error.injEq] at run
      exact run ▸ .of_peek seen
    | ok token =>
      simp only [tooDeep, peek, run_bind, look, seen, fail, Except.error.injEq] at run
      subst run
      exact fun _ => .inr ⟨here, token, .refl here, seen, rfl⟩

/-- Where the next token cannot be seen, the parser fails for that reason. -/
def LooksFirst {α : Type} (parser : Parser α) : Prop :=
  ∀ here failure, here.peek = .error failure → parser.run here = .error failure

theorem looksFirst_tooDeep {α : Type} (limit : Limit) : LooksFirst (tooDeep limit : Parser α) := by
  intro here failure seen
  simp only [tooDeep, peek, run_bind, look, seen]

theorem looksFirst_expression (inner : Nested) (line : Bool) :
    LooksFirst (expression inner line) := by
  intro here failure seen
  simp only [expression, next, peek, run_bind, look, seen]

theorem looksFirst_block (inner : Nested) (block : Block) :
    LooksFirst (Grammar.block inner block) := by
  intro here failure seen
  simp only [Grammar.block, blockLine, peek, run_bind, look, seen]

/-- What runs out of levels at once stays within whatever looks at the next token first. -/
theorem within_tooDeep {α : Type} {right : Parser α} (limit : Limit) (onward : Onward right)
    (looks : LooksFirst right) :
    Within limit.fault (tooDeep limit) right := by
  refine ⟨onward, fun here => ?_⟩
  cases seen : here.peek with
  | error failure =>
    left
    rw [looksFirst_tooDeep limit here failure seen, looks here failure seen]
  | ok token =>
    refine .inr ⟨here, token, ⟨.refl here, seen, ?_⟩, ?_⟩
    · simp only [tooDeep, peek, run_bind, look, seen, fail]
    · exact ⟨fun value next run => right.leads here value next run, onward.faces here⟩

theorem within_nested_self (limit : Limit) (fault : Fault) (levels : Nat) :
    (Grammar.nested limit levels).Within fault (Grammar.nested limit levels) := by
  induction levels with
  | zero => exact ⟨fun _ => .refl (tooDeep limit), fun _ => .refl (tooDeep limit)⟩
  | succ levels ih =>
    exact ⟨within_expression ih, within_block ih⟩

/-- With fewer levels, a parser does what it does with more, or runs out of levels. -/
theorem within_nested (limit other : Limit) {fewer more : Nat} (bound : fewer ≤ more) :
    (Grammar.nested limit fewer).Within limit.fault (Grammar.nested other more) := by
  induction fewer generalizing more with
  | zero =>
    have self := within_nested_self other limit.fault more
    refine ⟨fun line => within_tooDeep limit (self.expression line).onward ?_,
      fun block => within_tooDeep limit (self.block block).onward ?_⟩
    · cases more with
      | zero => exact looksFirst_tooDeep other
      | succ more => exact looksFirst_expression _ line
    · cases more with
      | zero => exact looksFirst_tooDeep other
      | succ more => exact looksFirst_block _ block
  | succ fewer ih =>
    cases more with
    | zero => contradiction
    | succ more =>
      have within := ih (Nat.le_of_succ_le_succ bound)
      exact ⟨within_expression within, within_block within⟩

end Grammar

end Parlance
