import Parlance.Proofs.Grammar.Retrace
import Parlance.Proofs.Grammar.StatementLaws

/-!
Contract: the grammar is retraced at every place.

Owns: for each rule of the grammar, that it does elsewhere what it does here, as far as it looks,
provided that this holds of what is nested in it; and hence that it holds of the grammar with any
number of levels. The order of the rules is that of the grammar, from tight to loose.
-/

namespace Parlance

namespace Grammar

open Parlance.Parser Relocatable

instance {α : Type} [Relocatable α] : Relocatable (Listed α) :=
  ⟨fun change list => ⟨relocate change list.items, list.divided, relocate change list.close⟩⟩

/-- What is nested is retraced, an expression takes a token, and a block stops before a word that
ends it. -/
structure Nested.Retraces (change : Relocation) (inner : Nested) : Prop where
  expression : ∀ line kind settled, (inner.expression line).Retraces change kind settled true
    (inner.expression line)
  block : ∀ block kind settled, (inner.block block).Retraces change kind settled false
    (inner.block block)
  closes : ∀ block here body next, (inner.block block).run here = .ok (body, next) →
    block.endsAt next.kind = true

/-! ## Rows -/

section Rows

variable {α : Type} [Relocatable α] {change : Relocation} {kind : Kind} {settled : Bool}

theorem retraces_moreName (wanted : Expectation) (names : List String) :
    Parser.Retraces change kind settled false
      (do return names ++ [(← expect .name wanted).text])
      (do return relocate change names ++ [(← expect .name wanted).text]) := by
  apply Retraces.loosen
  apply (retraces_expect (by decide)).bind
  intro name _
  exact .pure (by simp)

theorem retraces_moreNames (names : List String) :
    (moreNames names).Retraces change kind settled false (moreNames names) := by
  have loop : (moreNames names).Retraces change kind settled false
      (moreNames (relocate change names)) :=
    retraces_whileKind (by decide) (fun names _ _ => retraces_moreName .variableName names) names
  rwa [relocate_names] at loop

theorem retraces_names : names.Retraces change kind settled true names := by
  apply (retraces_expect (by decide)).bind
  intro name _
  exact retraces_moreNames _

theorem retraces_segments {joints : List Kind} (inside : joints.contains .endOfInput = false)
    (wanted : Expectation) (first : String) :
    (segments joints wanted first).Retraces change kind settled false
      (segments joints wanted first) := by
  have selects : ∀ token : Token,
      (if joints.contains (relocate change token).kind then some (relocate change token) else none) =
        (if joints.contains token.kind then some token else none).map (relocate change) := by
    intro token
    rw [relocate_kind]
    split <;> rfl
  have unselected : ∀ token : Token, token.kind = .endOfInput →
      (if joints.contains token.kind then some token else none) = none := by
    intro token isOver
    rw [isOver, if_neg (Bool.eq_false_iff.mp inside)]
  exact retraces_foldWhile selects unselected (fun names _ _ => retraces_moreName wanted names) [first]

variable {bracket : Bracket} {item : Parser α}

theorem retraces_nextItem
    (itemRetraces : ∀ kind settled, item.Retraces change kind settled true item) :
    (nextItem bracket item).Retraces change kind settled false (nextItem bracket item) := by
  apply Retraces.bindNext
  apply Retraces.branch
  · intro _
    exact .pure rfl
  · intro _
    apply Retraces.loosen
    apply (itemRetraces _ _).bind
    intro value _
    apply retraces_skipLineBreaks.andThen
    intro _ _
    exact .pure rfl

theorem retraces_listed
    (itemRetraces : ∀ kind settled, item.Retraces change kind settled true item) :
    (listed bracket item).Retraces change kind settled true (listed bracket item) := by
  apply retraces_skipLineBreaks.andThen
  intro _ _
  apply (retraces_nextItem itemRetraces).andThen
  intro first _
  refine Retraces.andThen (retraces_whileKind (by decide) ?_ (first, false)) ?_
  · intro (items, _) _ _
    apply retraces_skipLineBreaks.andThen
    intro _ _
    apply (retraces_nextItem itemRetraces).andThen
    intro more _
    exact .pure (by simp [relocate])
  · intro (items, divided) _
    apply (retraces_expect (by cases bracket <;> decide)).bind
    intro close _
    exact .pure rfl

end Rows

section Rules

variable {change : Relocation} {inner : Nested} {kind : Kind} {settled : Bool}

theorem retraces_path (notOver : kind ≠ .endOfInput) :
    path.Retraces change kind settled true path := by
  apply (retraces_take notOver).bind
  intro first _
  apply (retraces_segments (by decide) _ _).andThen
  intro names _
  rw [relocate_names]
  split
  · exact .pure rfl
  · exact .bindSpan rfl fun span => .pure rfl

theorem AssignOp.ne_of_ofKind? {op : AssignOp} (isOp : AssignOp.ofKind? kind = some op) :
    kind ≠ .endOfInput := by
  rintro rfl
  cases isOp

variable (retraces : inner.Retraces change)

include retraces

theorem Nested.Retraces.blockThen {α : Type} [Relocatable α] {block : Block}
    {leftThen rightThen : List (Stmt Span) → Parser α} {taking : Bool}
    (closed : block.endsAt .endOfInput = false) (second : ∀ body middle, middle ≠ .endOfInput →
      (leftThen body).Retraces change middle settled taking (rightThen (relocate change body))) :
    (inner.block block >>= leftThen).Retraces change kind settled taking
      (inner.block block >>= rightThen) := by
  intro here isKind
  apply (retraces.block block kind settled here isKind).sequence
  intro body between run
  refine second body between.kind ?_ between rfl
  intro isOver
  have ends := retraces.closes block here body between run
  rw [isOver, closed] at ends
  cases ends

/-! ## Short statements -/

theorem retraces_assignment (start : Span) (target : Target Span) (op : AssignOp)
    (notOver : kind ≠ .endOfInput) :
    (assignment inner start target op).Retraces change kind settled true
      (assignment inner (change.place start) (relocate change target) op) := by
  apply (retraces_take notOver).bind
  intro _ _
  apply (retraces.expression false _ _).bind
  intro value _
  exact .bindSpan rfl fun span => .pure rfl

theorem retraces_namesAssignment (start : Span) (first : String) :
    (namesAssignment inner start first).Retraces change kind true true
      (namesAssignment inner (change.place start) first) := by
  apply (retraces_moreNames _).andThen
  intro names _
  rw [relocate_names]
  apply Retraces.bindSpan rfl
  intro span
  apply Retraces.bindPeek
  intro token sameKind
  rw [relocate_kind, sameKind]
  split
  · exact retraces_assignment retraces start _ _ (AssignOp.ne_of_ofKind? ‹_›)
  · exact retraces_reject

theorem retraces_plainAssignment (start : Span) (value : Expr Span) :
    (plainAssignment inner start value).Retraces change kind settled false
      (plainAssignment inner (change.place start) (relocate change value)) := by
  apply Retraces.bindPeek
  intro token sameKind
  rw [relocate_kind, sameKind]
  split
  · exact .pure (by rw [Expr.mark_relocate]; rfl)
  · have notOver := AssignOp.ne_of_ofKind? ‹_›
    rw [Expr.toTarget?_relocate]
    cases value.toTarget? with
    | none => exact retraces_fail notOver rfl rfl (Expr.mark_relocate change value)
    | some target => exact (retraces_assignment retraces start target _ notOver).loosen

theorem retraces_assignmentOrExpression (line : Bool) :
    (assignmentOrExpression inner line).Retraces change kind settled true
      (assignmentOrExpression inner line) := by
  apply Retraces.bindPeek
  intro start _
  apply (retraces.expression line _ _).bind
  intro value middle
  apply Retraces.bindNext
  have plain : (plainAssignment inner start.span value).Retraces change middle true false
      (plainAssignment inner (change.place start.span) (relocate change value)) :=
    retraces_plainAssignment retraces start.span value
  cases value with
  | «variable» name mark =>
    cases line && (middle == .symbol .comma) with
    | false => exact plain
    | true => exact (retraces_namesAssignment retraces start.span name).loosen
  | _ => exact plain

theorem retraces_returnStatement (notOver : kind ≠ .endOfInput) :
    (returnStatement inner).Retraces change kind settled true (returnStatement inner) := by
  apply (retraces_take notOver).bind
  intro start _
  apply Retraces.bindPeek
  intro token _
  rw [relocate_kind]
  apply Retraces.branch
  · intro _
    exact .bindSpan rfl fun span => .pure rfl
  · intro _
    apply Retraces.loosen
    apply (retraces.expression false _ _).bind
    intro value _
    exact .bindSpan rfl fun span => .pure rfl

theorem retraces_shortStatement (line : Bool) :
    (shortStatement inner line).Retraces change kind settled true (shortStatement inner line) := by
  apply Retraces.bindPeek
  intro token sameKind
  rw [relocate_kind, sameKind]
  split
  · exact (retraces_take (by decide)).bind fun _ _ => .pure rfl
  · exact (retraces_take (by decide)).bind fun _ _ => .pure rfl
  · exact retraces_returnStatement retraces (by decide)
  · exact retraces_assignmentOrExpression retraces line

/-! ## Expressions -/

theorem retraces_parenthesized (notOver : kind ≠ .endOfInput) :
    (parenthesized inner).Retraces change kind settled true (parenthesized inner) := by
  apply (retraces_take notOver).bind
  intro start _
  apply (retraces_listed (retraces.expression false)).bind
  intro ⟨items, divided, close⟩ _
  apply Retraces.bindSpan rfl
  intro span
  have tuple : ∀ kind, (pure (.tuple items span) : Parser (Expr Span)).Retraces change kind true
      false (pure (.tuple (relocate change items) (change.place span))) :=
    fun _ => .pure (Expr.relocate_tuple change items span).symm
  match items, divided with
  | [value], false => exact .pure rfl
  | [value], true => exact tuple _
  | [], _ => exact tuple _
  | _ :: _ :: _, _ => exact tuple _

theorem retraces_entry : (entry inner).Retraces change kind settled true (entry inner) := by
  apply (retraces_expect (by decide)).bind
  intro key _
  apply (retraces_expect (by decide)).bind
  intro _ _
  apply (retraces.expression false _ _).bind
  intro value _
  apply Retraces.pure
  rw [Expr.mark_relocate, relocate_tokenSpan, ← change.through]
  rfl

theorem retraces_bracketed (notOver : kind ≠ .endOfInput) :
    (bracketed inner).Retraces change kind settled true (bracketed inner) := by
  have arrays : ∀ kind start, (array inner start).Retraces change kind true true
      (array inner (change.place start)) := by
    intro kind start
    apply (retraces_listed (retraces.expression false)).bind
    intro list _
    exact .bindSpan rfl fun span => .pure (Expr.relocate_array change list.items span).symm
  apply (retraces_take notOver).bind
  intro start _
  apply retraces_skipLineBreaks.andThen
  intro _ _
  apply Retraces.bindAccept (by decide)
  · intro _
    apply retraces_skipLineBreaks.andThen
    intro _ _
    apply (retraces_expect (by decide)).bind
    intro _ _
    exact .bindSpan rfl fun span => .pure rfl
  · intro _
    apply Retraces.bindNext
    apply Retraces.branch
    · intro isName here isKind
      have isHere := isKind.trans (beq_iff_eq.mp isName)
      apply RetracesAt.bindPeekSecond (tokens_ne_nil isHere (by decide))
      intro second _
      rw [relocate_kind]
      refine Retraces.branch ?_ ?_ here isKind
      · intro _
        apply (retraces_listed fun _ _ => retraces_entry retraces).bind
        intro list _
        exact .bindSpan rfl fun span =>
          .pure (Expr.relocate_dictionary change list.items span).symm
      · intro _
        exact arrays _ start.span
    · intro _
      exact arrays _ start.span

theorem retraces_closure (notOver : kind ≠ .endOfInput) :
    (closure inner).Retraces change kind settled true (closure inner) := by
  apply (retraces_take notOver).bind
  intro start _
  apply retraces_names.bind
  intro params _
  apply (retraces_expect (by decide)).bind
  intro _ _
  rw [relocate_names]
  apply Retraces.bindAccept (by decide)
  · intro _
    apply (retraces_expect (by decide)).bind
    intro _ _
    apply (retraces.block _ _ _).andThen
    intro body _
    apply (retraces_expect (by decide)).bind
    intro _ _
    exact .bindSpan rfl fun span =>
      .pure (Expr.relocate_closureBlock change params body span).symm
  · intro _
    apply (retraces_shortStatement retraces false).bind
    intro body _
    apply (retraces_expect (by decide)).bind
    intro _ _
    exact .bindSpan rfl fun span => .pure rfl

theorem retraces_primary : (primary inner).Retraces change kind settled true (primary inner) := by
  apply Retraces.bindPeek
  intro token sameKind
  rw [relocate_kind, sameKind]
  split
  case h_5 => exact retraces_path (by decide)
  case h_6 => exact retraces_parenthesized retraces (by decide)
  case h_7 => exact retraces_bracketed retraces (by decide)
  case h_8 => exact retraces_closure retraces (by decide)
  case h_9 => exact retraces_reject
  all_goals exact (retraces_take (by decide)).bind fun _ _ => .pure rfl

theorem retraces_calls (callee : Expr Span) :
    (calls inner callee).Retraces change kind settled false
      (calls inner (relocate change callee)) := by
  apply retraces_whileKind (by decide)
  intro callee _ _
  apply Retraces.loosen
  apply (retraces_listed (retraces.expression false)).bind
  intro list _
  apply Retraces.pure
  have span : (relocate change callee).mark.through (relocate change list).close.span =
      change.place (callee.mark.through list.close.span) := by
    rw [Expr.mark_relocate, change.through]
    rfl
  rw [span, Expr.relocate_call]
  rfl

theorem retraces_members : (members inner).Retraces change kind settled true (members inner) := by
  apply (retraces_primary retraces).bind
  intro first _
  apply (retraces_calls retraces first).andThen
  intro called _
  apply retraces_whileKind (by decide)
  intro owner _ _
  apply Retraces.loosen
  apply (retraces_expect (by decide)).bind
  intro member _
  have accessed : Expr.access (relocate change owner) (relocate change member).text
      ((relocate change owner).mark.through (relocate change member).span) =
        relocate change (Expr.access owner member.text (owner.mark.through member.span)) := by
    rw [Expr.mark_relocate, relocate_tokenSpan, ← change.through]
    rfl
  rw [accessed]
  exact retraces_calls retraces _

theorem retraces_indexed : (indexed inner).Retraces change kind settled true (indexed inner) := by
  apply (retraces_members retraces).bind
  intro first _
  apply retraces_whileKind (by decide)
  intro owner _ _
  apply Retraces.loosen
  apply (retraces.expression false _ _).bind
  intro index _
  apply (retraces_expect (by decide)).bind
  intro _ _
  exact .bindSpan (Expr.mark_relocate change owner) fun span => .pure rfl

omit retraces in
theorem relocate_signs (op : UnaryOp) (spans : List Span) (value : Expr Span) :
    (relocate change spans).foldr (fun span value => .unary op value (span.through value.mark))
        (relocate change value) =
      relocate change
        (spans.foldr (fun span value => .unary op value (span.through value.mark)) value) := by
  induction spans with
  | nil => rfl
  | cons span spans ih =>
    rw [relocate_cons, List.foldr_cons, List.foldr_cons, ih, Expr.mark_relocate,
      relocate_span, ← change.through]
    rfl

omit retraces in
theorem retraces_prefixed (op : UnaryOp) {operand : Parser (Expr Span)}
    (operandRetraces : ∀ kind settled, operand.Retraces change kind settled true operand) :
    (prefixedFrom op operand []).Retraces change kind settled true (prefixedFrom op operand []) := by
  have round : ∀ (spans : List Span) (token : Token) (middle : Kind),
      (pure (spans ++ [token.span]) : Parser (List Span)).Retraces change middle true false
        (pure (relocate change spans ++ [(relocate change token).span])) :=
    fun spans token _ => .pure (by simp)
  apply Retraces.andThen (retraces_whileKind (by cases op <;> decide) round [])
  intro spans _
  apply (operandRetraces _ _).bind
  intro value _
  exact .pure (relocate_signs op spans value)

theorem retraces_operand : (operand inner).Retraces change kind settled true (operand inner) :=
  retraces_prefixed .not fun _ _ => retraces_prefixed .minus fun _ _ => retraces_indexed retraces

theorem retraces_binary (looseness : Nat) :
    (binary inner looseness).Retraces change kind settled true (binary inner looseness) := by
  induction looseness generalizing kind settled with
  | zero => exact retraces_operand retraces
  | succ looseness ih =>
    have selects : ∀ token : Token, operatorAt (looseness + 1) (relocate change token) =
        (operatorAt (looseness + 1) token).map (relocate change) := by
      intro token
      unfold operatorAt
      rw [relocate_kind]
      cases BinaryOp.ofKind? token.kind with
      | none => rfl
      | some op =>
        dsimp only
        split <;> rfl
    apply ih.bind
    intro first _
    have unselected : ∀ token : Token, token.kind = .endOfInput →
        operatorAt (looseness + 1) token = none := by
      intro token isOver
      unfold operatorAt
      rw [isOver]
      rfl
    apply retraces_foldWhile selects unselected
    intro left op _
    apply Retraces.loosen
    apply ih.bind
    intro right _
    apply Retraces.pure
    rw [Expr.mark_relocate, Expr.mark_relocate, ← change.through]
    rfl

theorem retraces_conditional (line : Bool) (notOver : kind ≠ .endOfInput) :
    (conditional inner line).Retraces change kind settled true (conditional inner line) := by
  apply (retraces_take notOver).bind
  intro start _
  apply (retraces.expression false _ _).bind
  intro condition _
  apply Retraces.bindAccept (by decide)
  · intro _
    apply (retraces_shortStatement retraces line).bind
    intro thenDo _
    apply Retraces.bindAccept (by decide)
    · intro _
      apply (retraces_shortStatement retraces line).bind
      intro elseDo _
      exact .bindSpan rfl fun span => .pure rfl
    · intro _
      exact .bindSpan rfl fun span => .pure rfl
  · intro _
    apply (retraces_expect (by decide)).bind
    intro _ _
    apply retraces.blockThen rfl
    intro thenDo _ notOver
    apply Retraces.bindAccept (by decide)
    · intro _
      apply (retraces_expect (by decide)).bind
      intro _ _
      apply retraces.blockThen rfl
      intro elseDo _ notOver
      apply (retraces_take notOver).bind
      intro _ _
      exact .bindSpan rfl fun span =>
        .pure (Expr.relocate_ifBlockElse change condition thenDo elseDo span).symm
    · intro _
      apply (retraces_take notOver).bind
      intro _ _
      exact .bindSpan rfl fun span =>
        .pure (Expr.relocate_ifBlock change condition thenDo span).symm

theorem retraces_expression (line : Bool) :
    (expression inner line).Retraces change kind settled true (expression inner line) := by
  apply Retraces.bindNext
  apply Retraces.branch
  · intro isIf
    have notOver : kind ≠ .endOfInput := by
      rw [beq_iff_eq.mp isIf]
      decide
    exact retraces_conditional retraces line notOver
  · intro _
    exact retraces_binary retraces _

/-! ## Statements -/

omit retraces in
theorem retraces_useStatement (notOver : kind ≠ .endOfInput) :
    useStatement.Retraces change kind settled true useStatement := by
  apply (retraces_take notOver).bind
  intro start _
  apply (retraces_expect (by decide)).bind
  intro first _
  apply (retraces_segments (by decide) _ _).andThen
  intro names _
  rw [relocate_names]
  exact .bindSpan rfl fun span => .pure rfl

theorem retraces_parameter :
    (parameter inner).Retraces change kind settled true (parameter inner) := by
  apply (retraces_expect (by decide)).bind
  intro name _
  apply Retraces.bindAccept (by decide)
  · intro _
    apply (retraces.expression false _ _).bind
    intro value _
    exact .bindSpan rfl fun span => .pure rfl
  · intro _
    exact .bindSpan rfl fun span => .pure rfl

theorem retraces_parameters (notOver : kind ≠ .endOfInput) :
    (parameters inner).Retraces change kind settled true (parameters inner) := by
  apply (retraces_take notOver).bind
  intro _ _
  apply (retraces_listed fun _ _ => retraces_parameter retraces).bind
  intro list _
  exact .pure rfl

theorem retraces_closedBlock {block : Block} (closed : block.endsAt .endOfInput = false) :
    (closedBlock inner block).Retraces change kind settled true (closedBlock inner block) := by
  apply retraces.blockThen closed
  intro body _ notOver
  apply (retraces_take notOver).bind
  intro _ _
  exact .pure rfl

theorem retraces_body {block : Block} {expected : Expectation} {start : Span}
    {build other : List (Stmt Span) → Span → Stmt Span} (closed : block.endsAt .endOfInput = false)
    (moves : ∀ body span,
      relocate change (build body span) = other (relocate change body) (change.place span)) :
    Parser.Retraces change kind settled true
      (expect .newline expected >>= fun _ => closedBlock inner block >>= fun body =>
        spanFrom start >>= fun span => pure (build body span))
      (expect .newline expected >>= fun _ => closedBlock inner block >>= fun body =>
        spanFrom (change.place start) >>= fun span => pure (other body span)) := by
  apply (retraces_expect (by decide)).bind
  intro _ _
  apply (retraces_closedBlock retraces closed).bind
  intro body _
  exact .bindSpan rfl fun span => .pure (moves body span).symm

theorem retraces_classStatement (notOver : kind ≠ .endOfInput) :
    (classStatement inner).Retraces change kind settled true (classStatement inner) := by
  apply (retraces_take notOver).bind
  intro start _
  apply (retraces_expect (by decide)).bind
  intro name middle
  apply Retraces.bindNext
  apply Retraces.branch
  · intro isParen
    have paren : middle ≠ .endOfInput := by
      rw [beq_iff_eq.mp isParen]
      decide
    apply (retraces_parameters retraces paren).bind
    intro fields _
    exact retraces_body retraces rfl (Stmt.relocate_classFields change name.text fields)
  · intro _
    exact retraces_body retraces rfl (Stmt.relocate_classBare change name.text)

omit retraces in
/-- The name of a method, before which `self` and a double colon may stand. Where they are looked
for, a name is taken in any case. -/
theorem retraces_methodName {α : Type} [Relocatable α] {left right : Bool → Token → Parser α}
    {taking : Bool}
    (goesOn : ∀ shared name middle, (left shared name).Retraces change middle true taking
      (right shared (relocate change name))) :
    (acceptShared >>= fun shared => expect .name .methodName >>= left shared).Retraces change kind
      settled true
      (acceptShared >>= fun shared => expect .name .methodName >>= right shared) := by
  have named : ∀ shared kind settled,
      (expect .name .methodName >>= left shared).Retraces change kind settled true
        (expect .name .methodName >>= right shared) :=
    fun shared _ _ => (retraces_expect (by decide)).bind (goesOn shared)
  unfold acceptShared
  rw [bind_assoc, bind_assoc]
  apply Retraces.bindPeek
  intro token sameKind
  rw [relocate_kind, relocate_text]
  by_cases isSelf : (token.kind == .name && token.text == "self") = true
  · have isName : kind = .name := by
      rw [← sameKind]
      exact beq_iff_eq.mp (Bool.and_eq_true_iff.mp isSelf).1
    rw [if_pos isSelf, bind_assoc, bind_assoc]
    intro here isKind
    have isHere : here.kind = .name := isKind.trans isName
    obtain ⟨first, rest, tokens⟩ := tokens_of_kind isHere (by decide)
    apply RetracesAt.bindPeekSecond (tokens_ne_nil isHere (by decide))
    intro second seen
    rw [relocate_kind]
    by_cases isJoint : (second.kind == .symbol .doubleColon) = true
    · simp only [if_pos isJoint, bind_assoc, pure_bind]
      apply (retraces_take (by decide) here isHere).sequence
      intro _ between taken
      -- The token that was looked at second is now the next one.
      have isBetween : between.kind = .symbol .doubleColon := by
        simp only [take, tokens, Except.ok.injEq, Prod.mk.injEq] at taken
        rw [Cursor.peekSecond_of_cons tokens, taken.2] at seen
        rw [← Cursor.kind_of_peek seen]
        exact beq_iff_eq.mp isJoint
      exact (retraces_take (by decide)).bind (fun _ _ => named true _ _) between isBetween
    · simp only [if_neg isJoint, pure_bind]
      exact named false _ _ here isKind
  · simp only [if_neg isSelf, pure_bind]
    exact named false _ _

theorem retraces_methodStatement (notOver : kind ≠ .endOfInput) :
    (methodStatement inner).Retraces change kind settled true (methodStatement inner) := by
  apply (retraces_take notOver).bind
  intro start _
  apply retraces_methodName
  intro shared name middle
  apply Retraces.bindNext
  apply Retraces.branch
  · intro isParen
    have paren : middle ≠ .endOfInput := by
      rw [beq_iff_eq.mp isParen]
      decide
    apply (retraces_parameters retraces paren).bind
    intro params _
    apply Retraces.bindAccept (by decide)
    · intro _
      apply (retraces.expression false _ _).bind
      intro value _
      exact .bindSpan rfl fun span =>
        .pure (Stmt.relocate_methodValue change shared name.text params value span).symm
    · intro _
      exact retraces_body retraces rfl
        (Stmt.relocate_methodBlock change shared name.text params)
  · intro _
    exact retraces_reject

theorem retraces_forStatement (notOver : kind ≠ .endOfInput) :
    (forStatement inner).Retraces change kind settled true (forStatement inner) := by
  apply (retraces_take notOver).bind
  intro start _
  apply retraces_names.bind
  intro bindings _
  rw [relocate_names]
  apply (retraces_expect (by decide)).bind
  intro _ _
  apply (retraces.expression false _ _).bind
  intro source _
  exact retraces_body retraces rfl (Stmt.relocate_forLoop change bindings source)

theorem retraces_whileStatement (notOver : kind ≠ .endOfInput) :
    (whileStatement inner).Retraces change kind settled true (whileStatement inner) := by
  apply (retraces_take notOver).bind
  intro start _
  apply (retraces.expression false _ _).bind
  intro condition _
  exact retraces_body retraces rfl (Stmt.relocate_whileLoop change condition)

theorem retraces_statement :
    (statement inner).Retraces change kind settled true (statement inner) := by
  apply Retraces.bindPeek
  intro token sameKind
  rw [relocate_kind, sameKind]
  split
  · exact retraces_useStatement (by decide)
  · exact retraces_classStatement retraces (by decide)
  · exact retraces_methodStatement retraces (by decide)
  · exact retraces_forStatement retraces (by decide)
  · exact retraces_whileStatement retraces (by decide)
  · exact retraces_shortStatement retraces true

theorem retraces_blockLine (block : Block) :
    (blockLine inner block).Retraces change kind settled false (blockLine inner block) := by
  apply Retraces.bindPeek
  intro token sameKind
  rw [relocate_kind]
  apply Retraces.branch
  · intro _
    exact .pure rfl
  · intro _
    apply Retraces.branch
    · intro _
      exact retraces_reject
    · intro _
      apply Retraces.loosen
      apply (retraces_statement retraces).bind
      intro value _
      apply Retraces.bindNext
      apply Retraces.branch
      · intro _
        exact .pure rfl
      · intro _
        exact retraces_reject

theorem retraces_block (block : Block) :
    (Grammar.block inner block).Retraces change kind settled false
      (Grammar.block inner block) := by
  apply (retraces_blockLine retraces block).andThen
  intro first _
  apply retraces_whileKind (by decide)
  intro body _ _
  apply (retraces_blockLine retraces block).andThen
  intro more _
  exact .pure (by simp)

end Rules

/-- The fault of opening one level too many is one of the grammar, and names no token. -/
theorem retraces_tooDeep {α : Type} [Relocatable α] {change : Relocation} {kind : Kind}
    {settled taking : Bool} (limit : Limit) :
    (tooDeep limit : Parser α).Retraces change kind settled taking (tooDeep limit) := by
  apply retraces_failAt fun _ => limit.fault
  · intro _
    unfold Limit.fault
    split <;> rfl
  · intro _
    unfold Limit.fault
    split <;> rfl

theorem endsAt_of_run_nested {limit : Limit} {levels : Nat} {block : Block} {here next : Cursor}
    {body : List (Stmt Span)}
    (run : ((nested limit levels).block block).run here = .ok (body, next)) :
    block.endsAt next.kind = true := by
  obtain ⟨taken, -, bodyOf⟩ :=
    ((lawful_nested limit levels (Nat.le_refl _)).block block _ _ here rfl rfl).leaves body next run
  exact bodyOf.words.endsAt block (.inr rfl)

theorem retraces_nested (change : Relocation) (limit : Limit) (levels : Nat) :
    (nested limit levels).Retraces change := by
  induction levels with
  | zero =>
    exact ⟨fun _ _ _ => retraces_tooDeep limit, fun _ _ _ => retraces_tooDeep limit,
      fun _ _ _ _ => endsAt_of_run_nested⟩
  | succ levels ih =>
    refine ⟨fun line kind settled => ?_, fun block kind settled => ?_,
      fun _ _ _ _ => endsAt_of_run_nested⟩
    · exact retraces_expression ih line
    · exact retraces_block ih block

/-! ## Programs -/

/-- The lines of a program, and the end of the input behind them. -/
def programParts (limit : Limit) : Parser (List (Stmt Span) × Token) := do
  let body ← (nested limit limit.depth).block .program
  let stop ← peek
  return (body, stop)

theorem retraces_programParts (change : Relocation) (limit : Limit) (kind : Kind) (settled : Bool) :
    (programParts limit).Retraces change kind settled false (programParts limit) := by
  apply ((retraces_nested change limit _).block _ _ _).andThen
  intro body _
  apply Retraces.bindPeek
  intro stop _
  exact .pure rfl

theorem program_eq_programParts (limit : Limit) :
    Grammar.program limit = programParts limit >>= fun parts =>
      return ⟨parts.1, ⟨1, 1, parts.2.span.endLine, parts.2.span.endColumn, 0⟩⟩ := by
  unfold Grammar.program programParts
  simp only [bind_assoc, pure_bind]

theorem run_block_of_programParts {limit : Limit} {here next : Cursor} {body : List (Stmt Span)}
    {stop : Token} (run : (programParts limit).run here = .ok ((body, stop), next)) :
    ((nested limit limit.depth).block .program).run here = .ok (body, next) ∧
      next.peek = .ok stop := by
  unfold programParts at run
  rw [run_bind] at run
  cases blockRun : ((nested limit limit.depth).block .program).run here with
  | error failure => simp [blockRun] at run
  | ok reply =>
    obtain ⟨found, between⟩ := reply
    simp only [blockRun] at run
    rw [run_bind, peek, look] at run
    dsimp only at run
    cases seen : between.peek with
    | error failure => simp [seen] at run
    | ok token =>
      simp only [seen, run_pure, Except.ok.injEq, Prod.mk.injEq] at run
      obtain ⟨⟨rfl, rfl⟩, rfl⟩ := run
      exact ⟨rfl, seen⟩

end Grammar

namespace Program

open Grammar

/-- A program is made of its lines and reaches to the end of the input. -/
theorem ofReading_eq_map (limit : Limit) (reading : Reading) :
    ofReading limit reading =
      (((programParts limit).run (.ofReading reading)).map Prod.fst).map fun parts =>
        ⟨parts.1, ⟨1, 1, parts.2.span.endLine, parts.2.span.endColumn, 0⟩⟩ := by
  unfold ofReading
  rw [program_eq_programParts, Parser.run_bind]
  cases (programParts limit).run (.ofReading reading) <;> rfl

theorem ofReading_eq_error_iff {limit : Limit} {reading : Reading} {failure : Failure} :
    ofReading limit reading = .error failure ↔
      (programParts limit).run (.ofReading reading) = .error failure := by
  rw [ofReading_eq_map]
  cases (programParts limit).run (.ofReading reading) with
  | error cause => simp [Except.map]
  | ok reply => simp [Except.map]

theorem ofReading_eq_ok_iff {limit : Limit} {reading : Reading} {program : Program Span} :
    ofReading limit reading = .ok program ↔
      ∃ stop next, (programParts limit).run (.ofReading reading) = .ok ((program.body, stop), next) ∧
        program.mark = ⟨1, 1, stop.span.endLine, stop.span.endColumn, 0⟩ := by
  obtain ⟨body, mark⟩ := program
  rw [ofReading_eq_map]
  cases (programParts limit).run (.ofReading reading) with
  | error cause => simp [Except.map]
  | ok reply =>
    obtain ⟨⟨found, stop⟩, next⟩ := reply
    simp only [Except.map, Except.ok.injEq, Program.mk.injEq, Prod.mk.injEq]
    constructor
    · rintro ⟨rfl, rfl⟩
      exact ⟨stop, next, ⟨⟨rfl, rfl⟩, rfl⟩, rfl⟩
    · rintro ⟨_, _, ⟨⟨rfl, rfl⟩, rfl⟩, rfl⟩
      exact ⟨rfl, rfl⟩

end Program

end Parlance
