import Parlance.Proofs.Grammar.ExpressionRules
import Parlance.Proofs.Grammar.ShortLaws

/-!
Contract: what the runs of the parsers of expressions come to.

Owns: one law for each of these parsers. If it succeeds, the tokens form its tree, and the tree fits
them. If it fails, the words taken begin a phrase of its kind. Chains keep from round to round that
the tokens so far form the tree so far, so what fails in a round stands behind a whole phrase.
-/

namespace Parlance.Grammar

open Lexeme Parlance.Parser

variable {depth levels : Nat} {inner : Nested} {kind : Kind} {last : Span} {front : List Token}

/-! ## Primaries -/

theorem runs_path (room : levels + 2 ≤ depth) :
    path.Runs .name last (ExprOf depth (Derives levels .primary))
      (Viable (levels + 1) .primary) := by
  refine .bindTake (by decide) fun first _ isName => ?_
  refine (runs_segments isName).bindLast ?_ fun more next names _ joined => ?_
  · rintro words ⟨more, found, joined, several⟩
    exact .of (fun next _ => .path joined several) more rfl
  generalize row : more.map Token.lexeme = words at joined
  split
  · cases joined with
    | one isName =>
      obtain rfl := List.map_eq_nil_iff.mp row
      exact .pure ⟨rfl, .ofPrimary room rfl .none (.name isName) rfl⟩
    | more isName isJoint tail => cases tail
  · rename_i several
    refine .bindSpan (.pure ⟨rfl, .ofPrimary room rfl .none (.path joined ?_)
      (congrArg (first.lexeme :: ·) row)⟩)
    cases joined with
    | one isName => exact absurd rfl (several _)
    | more isName isJoint tail => cases tail <;> simp

theorem exists_parenthesized {opening : Lexeme} {words : List Lexeme}
    {list : List (Expr Unit) × Bool} (opens : opening.kind = .symbol .lparen)
    (closed : Closed levels (.items .expression .round) words list) :
    ∃ value, Closed levels .primary (opening :: words) value := by
  obtain ⟨values, divided⟩ := list
  cases divided with
  | true => exact ⟨_, fun next isClosed => .tuple opens (closed next isClosed) (.inr rfl)⟩
  | false =>
    have short := (closed .newline rfl).length_of_undivided
    match values, closed, short with
    | [], closed, _ =>
      exact ⟨_, fun next isClosed => .tuple opens (closed next isClosed) (.inl rfl)⟩
    | [value], closed, _ => exact ⟨_, fun next isClosed => .grouping opens (closed next isClosed)⟩

section Rules

variable (lawful : Lawful depth levels inner) (room : levels + 2 ≤ depth)

include lawful room

theorem runs_parenthesized :
    (parenthesized inner).Runs (.symbol .lparen) last (ExprOf depth (Derives levels .primary))
      (Viable (levels + 1) .primary) := by
  refine .bindTake (by decide) fun opening _ opens => ?_
  refine (lawful.expressions .round).bindLast ?_ fun taken next list _ listOf => .bindSpan ?_
  · rintro words ⟨⟨more, list, closed⟩, -⟩
    obtain ⟨value, whole⟩ := exists_parenthesized opens closed
    exact .of whole more rfl
  obtain ⟨derives, -, strung⟩ := listOf
  have within := Strung.skip opens rfl strung
  split
  · rename_i value isOne undivided
    rw [isOne] at within
    rw [isOne, undivided] at derives
    exact .pure ⟨rfl, .ofPrimary room rfl within (.grouping opens derives) rfl⟩
  · rename_i other
    refine .pure ⟨rfl, .ofPrimary room rfl within ?_ rfl⟩
    rw [Expr.shape_tuple]
    refine .tuple opens derives ?_
    cases isDivided : list.divided with
    | true => exact .inr rfl
    | false =>
      rw [isDivided] at derives
      have short : (list.items.map Expr.shape).length ≤ 1 := derives.length_of_undivided
      match items : list.items with
      | [] => exact .inl rfl
      | [item] => exact absurd isDivided (other item items)
      | _ :: _ :: _ => simp [items] at short

theorem runs_bracketed :
    (bracketed inner).Runs (.symbol .lbracket) last (ExprOf depth (Derives levels .primary))
      (Viable (levels + 1) .primary) := by
  refine .bindTake (by decide) fun opening _ opens => .bindBreaks fun breaks ahead _ before => ?_
  have whole : ∀ taken : List Token,
      opening.span.through (endSpan (endSpan opening.span breaks) taken) =
        rowSpan (opening :: (breaks ++ taken)) := by simp
  have arrayed : (do
      let list ← listed .square (inner.expression false)
      return .array list.items (← spanFrom opening.span) : Parser (Expr Span)).Runs ahead
        (endSpan opening.span breaks)
        (fun taken next found =>
          ExprOf depth (Derives levels .primary) (opening :: (breaks ++ taken)) next found ∧
            taken ≠ [])
        (fun words => Viable (levels + 1) .primary
          (opening.lexeme :: (breaks.map Token.lexeme ++ words)) ∧
            (ahead = .name → words ≠ [])) := by
    refine (lawful.expressions .square).bindLast ?_ fun taken next list _ listOf =>
      .bindSpan (.pure ⟨rfl, ?_, listOf.filled⟩)
    · rintro words ⟨⟨more, ⟨values, divided⟩, closed⟩, filled⟩
      refine ⟨?_, filled⟩
      exact .of (fun next isClosed => .array opens ((closed next isClosed).indent before)) more
        (by simp)
    · exact .ofPrimary room (whole taken) (.skip opens rfl (.indent before listOf.strung))
        (by rw [Expr.shape_array]; exact .array opens (listOf.words.indent before)) (by simp)
  refine .bindAccept (by decide) (fun colon _ sameColon toColon => ?_) fun _ => .bindNext ?_
  · have isColon := sameColon.trans toColon
    refine .bindBreaks fun more _ _ after => ?_
    refine .bindExpect (by decide) (fun _ => ?_) fun closing _ sameEnd toEnd => .bindSpan (.pure ?_)
    · exact .of (fun next _ => .emptyDictionary opens before isColon after (sample_kind _))
        [sample (.symbol .rbracket)] (by simp)
    · exact .ofPrimary room (by simp [Expr.mark]) .none
        (.emptyDictionary opens before isColon after (sameEnd.trans toEnd)) (by simp)
  split
  · rename_i isName
    rw [beq_iff_eq] at isName
    subst isName
    refine .bindPeekSecond fun second => ?_
    split
    · refine (runs_listed (runs_entry lawful)).begins.bindLast ?_ fun taken next list leads listOf =>
        .bindSpan (.pure ⟨rfl, ?_, listOf.filled⟩)
      · rintro words ⟨⟨⟨more, ⟨entries, divided⟩, closed⟩, filled⟩, begins⟩
        refine ⟨?_, filled rfl⟩
        obtain ⟨first, rest, rfl⟩ := List.exists_cons_of_ne_nil (filled rfl)
        have isKey : first.kind = .name := begins first rest rfl
        exact .of (fun next isClosed => .dictionary opens ((closed next isClosed).indent before)
          ((closed next isClosed).filled_of_name isKey)) more (by simp)
      · have words : Derives levels .primary _ next (.dictionary (list.items.map Entry.shape) ()) :=
          .dictionary opens (listOf.words.indent before) (listOf.words.filled_of_name leads)
        exact .ofPrimary room (whole taken) (.skip opens rfl (.indent before listOf.strung))
          (by rw [Expr.shape_dictionary]; exact words) (by simp)
    · exact arrayed.weaken (fun _ _ _ _ holds => holds) fun _ viable => ⟨viable.1, viable.2 rfl⟩
  · exact arrayed.weaken (fun _ _ _ _ holds => holds.1) fun _ viable => viable.1

theorem runs_closure :
    (closure inner).Runs (.keyword .kwFn) last (ExprOf depth (Derives levels .primary))
      (Viable (levels + 1) .primary) := by
  refine .bindTake (by decide) fun opening _ opens => ?_
  -- Parameters are followed by an arrow, `break` and `end`.
  have headed : ∀ {words more : List Lexeme} {params : List String},
      Joined [.symbol .comma] (words ++ more) params →
        Viable (levels + 1) .primary (opening.lexeme :: words) := by
    intro words more params joined
    exact .of (fun next _ => .closureLine opens joined (sample_kind _) (short_break false)
      (sample_kind _)) (more ++ [sample (.symbol .arrow), sample (.keyword .kwBreak),
        sample (.keyword .kwEnd)]) (by simp)
  refine runs_names.bind ?_ fun head _ params _ joined => ?_
  · rintro words ⟨more, params, joined⟩
    exact headed joined
  refine .bindExpect (by decide) (fun _ => ?_) fun arrow _ sameArrow toArrow => ?_
  · have row : Joined [.symbol .comma] ((head.map Token.lexeme ++ []) ++ []) params := by
      simpa using joined
    exact headed row
  have isArrow := sameArrow.trans toArrow
  refine .bindAccept (by decide) (fun start _ sameDo toDo => ?_) fun _ => ?_
  · have isDo := sameDo.trans toDo
    refine .bindExpect (by decide) (fun _ => ?_) fun lineEnd _ sameBreak toBreak => ?_
    · exact .of (fun next _ => .closureBlock opens joined isArrow isDo (sample_kind _)
        (nestedLines_nil rfl) (sample_kind _)) [sample .newline, sample (.keyword .kwEnd)] (by simp)
    have isBreak := sameBreak.trans toBreak
    refine (lawful.block .closureBody _ _).bind ?_ fun taken behind body _ bodyOf => ?_
    · rintro words ⟨more, body, closed⟩
      exact .of (fun next _ => .closureBlock opens joined isArrow isDo isBreak (closed _ rfl)
        (sample_kind _)) (more ++ [sample (.keyword .kwEnd)]) (by simp)
    have isEnd : behind = .keyword .kwEnd := by
      simpa [Block.endsAt] using bodyOf.words.endsAt .closureBody (.inr rfl)
    refine .bindExpect (by decide) (fun notEnd => absurd isEnd notEnd) ?_
    rintro closing next rfl closes
    have words : Derives levels .primary _ next (.closureBlock params (body.map Stmt.shape) ()) :=
      .closureBlock opens joined isArrow isDo isBreak bodyOf.words closes
    refine .bindSpan (.pure (.ofPrimary room (by simp [Expr.mark]) ?_
      (by rw [Expr.shape_closureBlock]; exact words) (by simp)))
    · have parts : opening :: (head ++ arrow :: start :: lineEnd :: (taken ++ [closing])) =
          opening :: (head ++ [arrow, start]) ++ lineEnd :: (taken ++ [closing]) := by simp
      rw [parts]
      exact (bodyOf.strung.extend [closing]).skipTo (opening :: (head ++ [arrow, start])) isBreak rfl
  · refine (runs_shortStatement lawful).bind ?_ fun taken behind body _ bodyOf => ?_
    · rintro words ⟨more, body, closed⟩
      exact .of (fun next _ => .closureLine opens joined isArrow (closed _ rfl)
        (sample_kind (.keyword .kwEnd))) (more ++ [sample (.keyword .kwEnd)]) (by simp)
    refine .bindExpect (by decide) (fun _ => ?_) ?_
    · exact .of (fun next _ => .closureLine opens joined isArrow
        (bodyOf.words.spare.closed rfl _ rfl) (sample_kind (.keyword .kwEnd)))
        [sample (.keyword .kwEnd)] (by simp)
    rintro closing _ rfl closes
    refine .bindSpan (.pure (.ofPrimary room (by simp [Expr.mark]) ?_
      (.closureLine opens joined isArrow bodyOf.words closes) (by simp)))
    exact ((Strung.one bodyOf.fitted).extend [closing]).skipTo (opening :: head) isArrow rfl

omit lawful in
/-- A literal is described by the token that was looked at, which is the one that is taken. -/
theorem runs_literal {token : Token} {value : Expr Span} {viable : List Lexeme → Prop}
    (notOver : kind ≠ .endOfInput) (mark : value.mark = token.span) (leaf : value.children = [])
    (derives : ∀ next, Derives levels .primary [token.lexeme] next value.shape) :
    (do let _ ← take
        return value : Parser (Expr Span)).Runs kind last
      (fun taken next found => (∀ first rest, taken = first :: rest → first = token) →
        ExprOf depth (Derives levels .primary) taken next found) viable := by
  refine .bindTake notOver fun taken next _ => .pure fun agrees => ?_
  rw [agrees taken [] rfl]
  exact .ofPrimary room mark (leaf ▸ .none) (derives next) rfl

theorem runs_primary :
    (primary inner).Runs kind last (ExprOf depth (Derives levels .primary))
      (Viable (levels + 1) .primary) := by
  refine .bindFirst fun token same => ?_
  subst same
  split
  · rename_i isNumber
    exact runs_literal room (by simp [isNumber]) rfl rfl fun _ => .number isNumber
  · rename_i isString
    exact runs_literal room (by simp [isString]) rfl rfl fun _ => .string isString
  · rename_i isBoolean
    exact runs_literal room (by simp [isBoolean]) rfl rfl fun _ => .boolean isBoolean
  · rename_i isNil
    exact runs_literal room (by simp [isNil]) rfl rfl fun _ => .nil isNil
  · rename_i isName
    rw [isName]
    exact (runs_path room).weaken (fun _ _ _ _ exprOf _ => exprOf) fun _ viable => viable
  · rename_i opens
    rw [opens]
    exact (runs_parenthesized lawful room).weaken (fun _ _ _ _ exprOf _ => exprOf)
      fun _ viable => viable
  · rename_i opens
    rw [opens]
    exact (runs_bracketed lawful room).weaken (fun _ _ _ _ exprOf _ => exprOf) fun _ viable => viable
  · rename_i opens
    rw [opens]
    exact (runs_closure lawful room).weaken (fun _ _ _ _ exprOf _ => exprOf) fun _ viable => viable
  · exact runs_reject (.of (fun next _ => .name (sample_kind .name)) _ rfl)

/-! ## Chains and operators -/

theorem runs_calls {callee : Expr Span}
    (calleeOf : ExprOf depth (Derives levels .members) front kind callee) :
    (calls inner callee).Runs kind last
      (fun taken next found => ExprOf depth (Derives levels .members) (front ++ taken) next found)
      (fun words => Viable (levels + 1) .members (front.map Token.lexeme ++ words)) := by
  refine runs_loop (ExprOf depth (Derives levels .members)) _ front ?_ calleeOf
  intro row opening callee choice middle selected calleeOf
  have opens : opening.lexeme.kind = .symbol .lparen := (eq_of_ofKind selected).1
  refine (lawful.expressions .round).bindLast ?_ fun taken next list _ listOf => .pure ⟨rfl, ?_⟩
  · rintro words ⟨⟨more, ⟨args, divided⟩, closed⟩, -⟩
    exact .of (fun next isClosed => .call calleeOf.words.spare opens (closed next isClosed)) more
      (by simp)
  · refine .ofMembers room ?_ ((Strung.one calleeOf.fitted).append opens rfl listOf.strung)
      (by rw [Expr.shape_call]; exact .call calleeOf.words opens listOf.words) (by simp)
    obtain ⟨args, rfl⟩ := listOf.closes
    change callee.mark.through list.close.span = _
    rw [show callee.mark = rowSpan row from calleeOf.fitted.mark,
      rowSpan_append calleeOf.fitted.filled .origin]
    simp

theorem runs_members :
    (members inner).Runs kind last (ExprOf depth (Derives levels .members))
      (Viable (levels + 1) .members) := by
  refine (runs_primary lawful room).bind ?_ fun head _ first _ firstOf => ?_
  · intro _ viable
    exact viable.lift (fun _ closed => closed) fun _ _ _ derives => .ofPrimary derives
  refine (runs_calls lawful room ⟨.ofPrimary firstOf.words, firstOf.fitted⟩).bind
    (fun _ viable => viable) fun taken _ owner _ ownerOf => ?_
  refine (runs_loop (ExprOf depth (Derives levels .members)) (Viable (levels + 1) .members)
    (head ++ taken) ?_ ownerOf).weaken (fun _ _ _ _ exprOf => ?_) fun _ viable => ?_
  · intro row dot owner choice _ selected ownerOf
    have isDot : dot.lexeme.kind = .symbol .dot := (eq_of_ofKind selected).1
    refine .bindExpect (by decide) (fun _ => ?_) fun member ahead same toName => ?_
    · exact .of (fun next _ => .access ownerOf.words.spare isDot (sample_kind _)) [sample .name]
        (by simp)
    have accessed : ExprOf depth (Derives levels .members) (row ++ [dot, member]) ahead
        (.access owner member.text (owner.mark.through member.span)) := by
      refine .ofMembers room ?_ ((Strung.one ownerOf.fitted).extend [dot, member])
        (.access ownerOf.words isDot (same.trans toName)) (by simp)
      change owner.mark.through member.span = _
      rw [show owner.mark = rowSpan row from ownerOf.fitted.mark,
        rowSpan_append ownerOf.fitted.filled .origin]
      rfl
    refine (runs_calls lawful room accessed).weaken (fun _ _ _ _ exprOf => ?_) fun _ viable => ?_
    · simpa using exprOf
    · simpa using viable
  · simpa using exprOf
  · simpa using viable

theorem runs_indexed :
    (indexed inner).Runs kind last (ExprOf depth (Derives levels .indexed))
      (Viable (levels + 1) .indexed) := by
  refine (runs_members lawful room).bind ?_ fun front _ first _ firstOf => ?_
  · intro _ viable
    exact viable.lift (fun _ closed => closed) fun _ _ _ derives => .ofMembers derives
  refine runs_loop (ExprOf depth (Derives levels .indexed)) (Viable (levels + 1) .indexed) front ?_
    ⟨.ofMembers firstOf.words, firstOf.fitted⟩
  intro row opening owner choice _ selected ownerOf
  have opens : opening.lexeme.kind = .symbol .lbracket := (eq_of_ofKind selected).1
  refine (runs_nested lawful false).bind ?_ fun place _ index _ indexOf => ?_
  · rintro words ⟨more, place, closed⟩
    exact .of (fun next _ => .index ownerOf.words.spare opens (closed _ rfl)
      (sample_kind (.symbol .rbracket))) (more ++ [sample (.symbol .rbracket)]) (by simp)
  refine .bindExpect (by decide) (fun _ => ?_) ?_
  · exact .of (fun next _ => .index ownerOf.words.spare opens (indexOf.words.spare.closed rfl _ rfl)
      (sample_kind (.symbol .rbracket))) [sample (.symbol .rbracket)] (by simp)
  rintro closing _ rfl closes
  refine .bindSpan (.pure (.ofIndexed room ?_ ?_
    (.index ownerOf.words opens indexOf.words closes) (by simp)))
  · change owner.mark.through closing.span = _
    rw [show owner.mark = rowSpan row from ownerOf.fitted.mark,
      rowSpan_append ownerOf.fitted.filled .origin]
    simp
  · exact (Strung.one ownerOf.fitted).append opens rfl
      ((Strung.one indexOf.fitted).extend [closing])

omit lawful in
theorem ExprOf.signs {op : UnaryOp} {signs tokens : List Token} {next : Kind} {value : Expr Span}
    (areSigns : ∀ sign ∈ signs, sign.kind = op.kind)
    (valueOf : ExprOf depth (Derives levels (.prefixed op)) tokens next value) :
    ExprOf depth (Derives levels (.prefixed op)) (signs ++ tokens) next
      ((signs.map Token.span).foldr
        (fun span value => .unary op value (span.through value.mark)) value) := by
  induction signs with
  | nil => exact valueOf
  | cons sign signs ih =>
    have isSign : sign.kind = op.kind := areSigns sign List.mem_cons_self
    have mute : op.kind.endsOperand = false := by cases op <;> rfl
    have rest := ih fun other member => areSigns other (List.mem_cons_of_mem sign member)
    rw [List.map_cons, List.foldr_cons, List.cons_append]
    generalize (signs.map Token.span).foldr
      (fun span value => Expr.unary op value (span.through value.mark)) value = operand at rest ⊢
    have words : Derives levels (.prefixed op) ((sign :: (signs ++ tokens)).map Token.lexeme) next
        (.unary op operand.shape ()) := .unary isSign rest.words
    refine .of room ?_ (.skip isSign mute (.one rest.fitted)) words words.expression_of_prefixed rfl
    change sign.span.through operand.mark = _
    rw [show operand.mark = rowSpan (signs ++ tokens) from rest.fitted.mark,
      through_rowSpan rest.fitted.filled _ sign.span]
    rfl

omit lawful room in
theorem Derives.signs {op : UnaryOp} {signs words : List Lexeme} {next : Kind} {value : Expr Unit}
    (areSigns : ∀ sign ∈ signs, sign.kind = op.kind)
    (derives : Derives levels (.prefixed op) words next value) :
    Derives levels (.prefixed op) (signs ++ words) next (signed op signs.length value) := by
  induction signs with
  | nil => exact derives
  | cons sign signs ih =>
    refine .unary (areSigns sign (by simp)) (ih fun other member => ?_)
    exact areSigns other (by simp [member])

omit lawful in
theorem runs_prefixed {op : UnaryOp} {operand : Parser (Expr Span)}
    (operandRuns : ∀ kind last, operand.Runs kind last (ExprOf depth (Derives levels (.prefixed op)))
      (Viable (levels + 1) (.prefixed op))) :
    (prefixedFrom op operand []).Runs kind last (ExprOf depth (Derives levels (.prefixed op)))
      (Viable (levels + 1) (.prefixed op)) := by
  refine (runs_loop
    (fun taken _ (spans : List Span) =>
      spans = taken.map Token.span ∧ ∀ sign ∈ taken, sign.kind = op.kind) (fun _ => False)
    [] ?_ ⟨rfl, by simp⟩).bind (fun _ never => never.elim) ?_
  · rintro taken token spans choice middle selected ⟨rfl, areSigns⟩
    obtain ⟨isSign, rfl⟩ := eq_of_ofKind selected
    refine .pure ⟨by simp, fun sign member => ?_⟩
    rcases List.mem_append.mp member with old | new
    · exact areSigns sign old
    · rw [List.mem_singleton.mp new]
      exact isSign
  · rintro signs middle spans - ⟨rfl, areSigns⟩
    refine (operandRuns middle _).bindLast ?_ fun taken next value _ valueOf =>
      .pure ⟨rfl, valueOf.signs room areSigns⟩
    rintro more ⟨others, value, closed⟩
    have areWords : ∀ sign ∈ signs.map Token.lexeme, sign.kind = op.kind := by simpa using areSigns
    exact .of (fun next isClosed => .signs areWords (closed next isClosed)) others (by simp)

theorem runs_operand :
    (operand inner).Runs kind last (ExprOf depth (Derives levels (.prefixed .not)))
      (Viable (levels + 1) (.prefixed .not)) := by
  refine runs_prefixed room fun kind last => ?_
  refine (runs_prefixed room fun kind last => ?_).weaken
    (fun _ _ _ _ (valueOf : ExprOf _ _ _ _ _) => ⟨.ofSigned valueOf.words, valueOf.fitted⟩)
    fun _ viable => viable.lift (fun _ closed => closed) fun _ _ _ derives => .ofSigned derives
  exact (runs_indexed lawful room).weaken
    (fun _ _ _ _ valueOf => ⟨.ofIndexed valueOf.words, valueOf.fitted⟩)
    fun _ viable => viable.lift (fun _ closed => closed) fun _ _ _ derives => .ofIndexed derives

omit lawful room in
theorem operatorAt_eq_some {looseness : Nat} {token : Token} {op : BinaryOp}
    (selected : operatorAt looseness token = some op) :
    BinaryOp.ofKind? token.lexeme.kind = some op ∧ op.looseness = looseness := by
  unfold operatorAt at selected
  split at selected
  · rename_i found isOp
    split at selected
    · rename_i rank
      obtain rfl := Option.some.inj selected
      exact ⟨isOp, beq_iff_eq.mp rank⟩
    · contradiction
  · contradiction

omit lawful room in
theorem mute_of_binary {op : BinaryOp} (isOp : BinaryOp.ofKind? kind = some op) :
    kind.endsOperand = false := by
  unfold BinaryOp.ofKind? at isOp
  split at isOp <;> first | contradiction | rfl

theorem runs_binary (looseness : Nat) (atMost : looseness ≤ BinaryOp.loosest) :
    ∀ kind last, (binary inner looseness).Runs kind last
      (ExprOf depth (Derives levels (.binary looseness)))
      (Viable (levels + 1) (.binary looseness)) := by
  induction looseness with
  | zero =>
    intro kind last
    exact (runs_operand lawful room).weaken
      (fun _ _ _ _ valueOf => ⟨.ofOperand valueOf.words, valueOf.fitted⟩)
      fun _ viable => viable.lift (fun _ closed => closed) fun _ _ _ derives => .ofOperand derives
  | succ looseness ih =>
    intro kind last
    have operandRuns := ih (Nat.le_of_succ_le atMost)
    refine (operandRuns kind last).bind ?_ fun front _ first _ firstOf => ?_
    · exact fun _ viable => viable.lift (fun _ closed => closed) fun _ _ _ derives =>
        .ofTighter derives
    refine runs_loop (ExprOf depth (Derives levels (.binary (looseness + 1))))
      (Viable (levels + 1) (.binary (looseness + 1))) front ?_
      ⟨.ofTighter firstOf.words, firstOf.fitted⟩
    intro row word left op _ selected leftOf
    obtain ⟨isOp, rank⟩ := operatorAt_eq_some selected
    refine (operandRuns _ word.span).bindLast ?_ fun taken next right _ rightOf => .pure ⟨rfl, ?_⟩
    · rintro words ⟨more, right, closed⟩
      exact .of (fun next isClosed =>
        .binary leftOf.words.spare isOp rank (closed next isClosed)) more (by simp)
    · have words : Derives levels (.binary (looseness + 1))
          (row.map Token.lexeme ++ word.lexeme :: taken.map Token.lexeme) next
          (.binary left.shape op right.shape ()) := .binary leftOf.words isOp rank rightOf.words
      refine .of room ?_ ?_ words (words.expression_of_binary atMost) (by simp)
      · change left.mark.through right.mark = _
        rw [show left.mark = rowSpan row from leftOf.fitted.mark,
          show right.mark = rowSpan taken from rightOf.fitted.mark,
          through_rowSpan rightOf.fitted.filled _ word.span,
          rowSpan_append leftOf.fitted.filled .origin]
        simp
      · exact (Strung.one leftOf.fitted).append rfl (mute_of_binary isOp) (.one rightOf.fitted)

/-! ## Full expressions -/

theorem runs_conditional {line : Bool} :
    (conditional inner line).Runs (.keyword .kwIf) last
      (ExprOf depth (Derives levels (.expression line)))
      (Viable (levels + 1) (.expression line)) := by
  refine .bindTake (by decide) fun opening _ opens => ?_
  refine (runs_nested lawful false).bind ?_ fun head _ condition _ test => ?_
  · rintro words ⟨more, condition, closed⟩
    exact .of (fun next _ => .ifBlock opens (closed _ rfl) (sample_kind .newline)
      (nestedLines_nil rfl) (sample_kind (.keyword .kwEnd)))
      (more ++ [sample .newline, sample (.keyword .kwEnd)]) (by simp)
  refine .bindAccept (by decide) ?onLine fun _ =>
    .bindExpect (by decide) (fun _ => ?missing) ?inBlock
  case missing =>
    exact .of (fun next _ => .ifBlock opens (test.words.spare.closed rfl _ rfl)
      (sample_kind .newline) (nestedLines_nil rfl) (sample_kind (.keyword .kwEnd)))
      [sample .newline, sample (.keyword .kwEnd)] (by simp)
  case onLine =>
    rintro middle _ rfl isThen
    refine (runs_shortStatement lawful).bind ?_ fun taken _ thenDo _ thenOf => ?_
    · rintro words ⟨more, thenDo, closed⟩
      exact .of (fun next isClosed => .ifLine opens test.words.spare isThen (closed next isClosed)
        (ne_else_of_settles isClosed)) more (by simp)
    refine .bindAccept (by decide) ?_ fun noElse => .bindSpan (.pure ?_)
    · rintro other _ rfl isElse
      refine (runs_shortStatement lawful).bindLast ?_ fun elseTaken next elseDo _ elseOf =>
        .bindSpan (.pure ⟨rfl, ?_⟩)
      · rintro elseWords ⟨more, elseDo, closed⟩
        exact .of (fun next isClosed => .ifLineElse opens test.words.spare isThen thenOf.words.spare
          isElse (closed next isClosed)) more (by simp)
      · have strung := (Strung.one test.fitted).append isThen rfl
          ((Strung.one thenOf.fitted).append isElse rfl (.one elseOf.fitted))
        exact .ofExpression room (by simp [Expr.mark]) (.skip opens rfl strung)
          (.ifLineElse opens test.words isThen thenOf.words isElse elseOf.words) (by simp)
    · have strung := (Strung.one test.fitted).append isThen rfl (.one thenOf.fitted)
      rw [List.append_nil]
      exact .ofExpression room (by simp [Expr.mark]) (.skip opens rfl strung)
        (.ifLine opens test.words isThen thenOf.words noElse) (by simp)
  case inBlock =>
    rintro lineEnd _ rfl isBreak
    refine (lawful.block .thenBranch _ _).bind ?_ fun taken after thenDo _ thenOf => ?_
    · rintro words ⟨more, thenDo, closed⟩
      exact .of (fun next _ => .ifBlock opens test.words.spare isBreak (closed _ rfl)
        (sample_kind (.keyword .kwEnd))) (more ++ [sample (.keyword .kwEnd)]) (by simp)
    refine .bindAccept (by decide) ?_ fun noElse => ?_
    · rintro other _ rfl isElse
      refine .bindExpect (by decide) (fun _ => ?_) fun elseEnd _ sameBreak toBreak => ?_
      · exact .of (fun next _ => .ifBlockElse opens test.words.spare isBreak thenOf.words.spare
          isElse (sample_kind .newline) (nestedLines_nil rfl) (sample_kind (.keyword .kwEnd)))
          [sample .newline, sample (.keyword .kwEnd)] (by simp)
      have isElseBreak := sameBreak.trans toBreak
      refine (lawful.block .elseBranch _ _).bind ?_ fun elseTaken final elseDo _ elseOf => ?_
      · rintro elseWords ⟨more, elseDo, closed⟩
        exact .of (fun next _ => .ifBlockElse opens test.words.spare isBreak thenOf.words.spare
          isElse isElseBreak (closed _ rfl) (sample_kind (.keyword .kwEnd)))
          (more ++ [sample (.keyword .kwEnd)]) (by simp)
      have isEnd : final = .keyword .kwEnd := by
        simpa [Block.endsAt] using elseOf.words.endsAt .elseBranch (.inr rfl)
      refine .bindTake (by simp [isEnd]) ?_
      rintro closing next rfl
      have words : Derives levels (.expression line) _ next
          (.ifBlockElse condition.shape (thenDo.map Stmt.shape) (elseDo.map Stmt.shape) ()) :=
        .ifBlockElse opens test.words isBreak thenOf.words isElse isElseBreak elseOf.words isEnd
      have strung := (Strung.one test.fitted).append isBreak rfl (thenOf.strung.append isElse rfl
        (.skip isElseBreak rfl (elseOf.strung.extend [closing])))
      exact .bindSpan (.pure (.ofExpression room (by simp [Expr.mark]) (.skip opens rfl strung)
        (by rw [Expr.shape_ifBlockElse]; exact words) (by simp)))
    · have isEnd : after = .keyword .kwEnd := by
        simpa [Block.endsAt, noElse] using thenOf.words.endsAt .thenBranch (.inr rfl)
      refine .bindTake (by simp [isEnd]) ?_
      rintro closing next rfl
      have words : Derives levels (.expression line) _ next
          (.ifBlock condition.shape (thenDo.map Stmt.shape) ()) :=
        .ifBlock opens test.words isBreak thenOf.words isEnd
      have strung := (Strung.one test.fitted).append isBreak rfl (thenOf.strung.extend [closing])
      exact .bindSpan (.pure (.ofExpression room (by simp [Expr.mark]) (.skip opens rfl strung)
        (by rw [Expr.shape_ifBlock]; exact words) (by simp)))

theorem runs_expression {line : Bool} :
    (expression inner line).Runs kind last (ExprOf depth (Derives levels (.expression line)))
      (Viable (levels + 1) (.expression line)) := by
  refine .bindNext ?_
  split
  · rename_i isIf
    rw [beq_iff_eq.mp isIf]
    exact runs_conditional lawful room
  · exact (runs_binary lawful room _ (Nat.le_refl _) kind last).weaken
      (fun _ _ _ _ valueOf => ⟨.ofBinary valueOf.words, valueOf.fitted⟩)
      fun _ viable => viable.lift (fun _ closed => closed) fun _ _ _ derives => .ofBinary derives

end Rules

end Parlance.Grammar
