import Parlance.Proofs.Grammar.Rules

/-!
Contract: what the parsers of statements and blocks give on the words of their rules.

Owns: one law for each rule of short statements, of statements with lines of their own, and of the
lines of a block. The lines of a block are read by a loop, so their laws speak of the lines read so
far (`linesFrom`).
-/

namespace Parlance.Grammar

open Lexeme Parlance.Parser

variable {inner : Nested} {word opening closing : Lexeme} {words rest : List Lexeme}

/-! ## Short statements -/

section Short

variable {line : Bool}
variable {value : Expr Unit} {back : List Lexeme} {op : AssignOp}

theorem delivers_breakLoop (isBreak : word.kind = .keyword .kwBreak) :
    (shortStatement inner line).Delivers [word] rest fun found => found.shape = .breakLoop () := by
  refine .bindSeen isBreak fun token kind => ?_
  simp only [kind]
  exact .bindTake fun _ _ => .pure rfl

theorem delivers_continueLoop (isContinue : word.kind = .keyword .kwContinue) :
    (shortStatement inner line).Delivers [word] rest
      fun found => found.shape = .continueLoop () := by
  refine .bindSeen isContinue fun token kind => ?_
  simp only [kind]
  exact .bindTake fun _ _ => .pure rfl

theorem delivers_returnNothing (isReturn : word.kind = .keyword .kwReturn)
    (stops : stopsReturn (leading .endOfInput rest) = true) :
    (shortStatement inner line).Delivers [word] rest
      fun found => found.shape = .returnNothing () := by
  refine .bindSeen isReturn fun token kind => ?_
  simp only [kind]
  refine .bindTake fun _ _ => Delivers.bindKind fun token seen => ?_
  rw [seen, List.nil_append, if_pos stops]
  exact .bindSpan fun _ => .pure rfl

theorem delivers_returnValue (isReturn : word.kind = .keyword .kwReturn)
    (goesOn : stopsReturn (leading (leading .endOfInput rest) words) = false)
    (delivers : (inner.expression false).Delivers words rest fun found => found.shape = value) :
    (shortStatement inner line).Delivers (word :: words) rest
      fun found => found.shape = .returnValue value () := by
  refine .bindSeen isReturn fun token kind => ?_
  simp only [kind]
  refine .bindTake fun _ _ => Delivers.bindKind fun token seen => ?_
  rw [seen, leading_append, goesOn]
  refine delivers.bindLast ?_
  rintro _ rfl
  exact .bindSpan fun _ => .pure rfl

/-- A short statement that begins with no jump is an assignment or an expression. -/
theorem delivers_shortStatement {post : Stmt Span → Prop}
    (noBreak : leading (leading .endOfInput rest) words ≠ .keyword .kwBreak)
    (noContinue : leading (leading .endOfInput rest) words ≠ .keyword .kwContinue)
    (noReturn : leading (leading .endOfInput rest) words ≠ .keyword .kwReturn)
    (delivers : (assignmentOrExpression inner line).Delivers words rest post) :
    (shortStatement inner line).Delivers words rest post := by
  refine Delivers.bindKind fun token seen => ?_
  rw [leading_append] at seen
  rw [← seen] at noBreak noContinue noReturn
  split
  · exact absurd ‹_› noBreak
  · exact absurd ‹_› noContinue
  · exact absurd ‹_› noReturn
  · exact delivers

theorem delivers_expressionStatement
    (delivers : (inner.expression line).Delivers words rest fun found => found.shape = value)
    (undivided : line = true → leading .endOfInput rest ≠ .symbol .comma)
    (unassigned : AssignOp.ofKind? (leading .endOfInput rest) = none) :
    (assignmentOrExpression inner line).Delivers words rest
      fun found => found.shape = .expression value () := by
  refine Delivers.bindKind fun start _ => delivers.bindLast ?_
  rintro found rfl
  refine .bindNext ?_
  have noNames : (line && leading .endOfInput rest == .symbol .comma) = false := by
    cases line with
    | false => rfl
    | true => simpa using undivided rfl
  rw [List.nil_append, noNames]
  have alone : (plainAssignment inner start.span found).Delivers [] rest
      fun result => result.shape = .expression found.shape () := by
    refine Delivers.bindKind fun token seen => ?_
    rw [seen, List.nil_append, unassigned]
    exact .pure rfl
  cases found <;> exact alone

theorem delivers_assignment {start : Span} {target : Target Span}
    (delivers : (inner.expression false).Delivers back rest fun found => found.shape = value) :
    (assignment inner start target op).Delivers (word :: back) rest
      fun found => found.shape = .assign target.shape op value () := by
  refine .bindTake fun _ _ => delivers.bindLast ?_
  rintro _ rfl
  exact .bindSpan fun _ => .pure rfl

theorem delivers_assign {front : List Lexeme} {assigned : Expr Unit} {target : Target Unit}
    (targetDelivers : (inner.expression line).Delivers front (word :: (back ++ rest))
      fun found => found.shape = assigned) (isTarget : assigned.toTarget? = some target)
    (isOp : AssignOp.ofKind? word.kind = some op)
    (delivers : (inner.expression false).Delivers back rest fun found => found.shape = value) :
    (assignmentOrExpression inner line).Delivers (front ++ word :: back) rest
      fun found => found.shape = .assign target op value () := by
  refine Delivers.bindKind fun start _ => targetDelivers.bind ?_
  rintro found rfl
  rw [Expr.toTarget?_shape, Option.map_eq_some_iff] at isTarget
  obtain ⟨place, isPlace, rfl⟩ := isTarget
  refine .bindNext ?_
  have noComma : (word.kind == .symbol .comma) = false := by
    cases seen : word.kind == .symbol .comma with
    | false => rfl
    | true =>
      rw [beq_iff_eq] at seen
      simp [seen, AssignOp.ofKind?] at isOp
  rw [List.cons_append, leading_cons, noComma, Bool.and_false]
  have assigns : (plainAssignment inner start.span found).Delivers (word :: back) rest
      fun result => result.shape = .assign place.shape op value () := by
    refine Delivers.bindKind fun token seen => ?_
    rw [seen, List.cons_append, leading_cons, isOp]
    dsimp only
    rw [isPlace]
    exact delivers_assignment delivers
  cases found <;> exact assigns

theorem delivers_assignNames {first : Lexeme} {others : List Lexeme} {names : List String}
    (joined : Joined [.symbol .comma] (first :: others) names) (several : 2 ≤ names.length)
    (firstDelivers : (inner.expression true).Delivers [first] (others ++ word :: (back ++ rest))
      fun found => found.shape = .variable first.text ())
    (isOp : AssignOp.ofKind? word.kind = some op)
    (delivers : (inner.expression false).Delivers back rest fun found => found.shape = value) :
    (assignmentOrExpression inner true).Delivers (first :: (others ++ word :: back)) rest
      fun found => found.shape = .assign (.names names ()) op value () := by
  have noComma : word.kind ≠ .symbol .comma := by
    intro isComma
    simp [isComma, AssignOp.ofKind?] at isOp
  have divided : leading .endOfInput (others ++ word :: back ++ rest) = .symbol .comma := by
    simpa using joined.second several word.kind
  refine Delivers.bindKind fun start _ => ?_
  change Delivers _ ([first] ++ (others ++ word :: back)) rest _
  refine Delivers.bind (by simpa using firstDelivers) fun found foundSame => ?_
  obtain ⟨mark, rfl⟩ : ∃ mark, found = .variable first.text mark := by
    cases found <;> simp [Expr.shape, Expr.map] at foundSame
    exact ⟨_, by rw [foundSame]⟩
  refine .bindNext ?_
  rw [divided, beq_self_eq_true, Bool.and_true]
  refine (delivers_moreNames joined (by simpa using noComma)).bind ?_
  rintro _ rfl
  refine .bindSpan fun _ => Delivers.bindKind fun token seen => ?_
  rw [seen, List.cons_append, leading_cons, isOp]
  exact delivers_assignment delivers

end Short

variable {body : List (Stmt Unit)} {name lineEnd bracket : Lexeme} {head list : List Lexeme}
variable {fields : List (Param Unit)} {shared : Bool}

/-! ## Statements with lines of their own -/

theorem delivers_use {path : List String} (opens : opening.kind = .keyword .kwUse)
    (joined : Joined [.symbol .doubleColon, .symbol .dot] words path)
    (noColons : leading .endOfInput rest ≠ .symbol .doubleColon)
    (noDot : leading .endOfInput rest ≠ .symbol .dot) :
    (statement inner).Delivers (opening :: words) rest fun found => found.shape = .use path () := by
  obtain ⟨first, others, rfl, isName⟩ := joined.begins
  refine .bindSeen opens fun token kind => ?_
  simp only [kind]
  refine .bindTake fun _ _ => ?_
  refine .bindExpect isName fun taken takenSame => ?_
  rw [show taken.text = first.text by rw [← Token.lexeme_text, takenSame]]
  refine (delivers_segments joined (by simp [noColons, noDot])).bindLast ?_
  rintro _ rfl
  exact .bindSpan fun _ => .pure rfl

theorem delivers_plainParameter (isName : name.kind = .name)
    (noDefault : leading .endOfInput rest ≠ .symbol .assign) :
    (parameter inner).Delivers [name] rest fun found => found.shape = .plain name.text () := by
  refine .bindExpect isName fun token same => ?_
  refine .bindRefuse noDefault ?_
  exact .bindSpan fun _ => .pure (by rw [← same]; rfl)

theorem delivers_defaultedParameter {equals : Lexeme} {value : Expr Unit}
    (isName : name.kind = .name) (isEquals : equals.kind = .symbol .assign)
    (delivers : (inner.expression false).Delivers words rest fun found => found.shape = value) :
    (parameter inner).Delivers (name :: equals :: words) rest
      fun found => found.shape = .defaulted name.text value () := by
  refine .bindExpect isName fun token same => ?_
  refine .bindAccept isEquals ?_
  refine delivers.bindLast ?_
  rintro _ rfl
  exact .bindSpan fun _ => .pure (by rw [← same]; rfl)

theorem delivers_parameters {back : List Lexeme} {otherwise : Parser (Stmt Span)}
    {behind : List (Param Span) → Parser (Stmt Span)} {post : Stmt Span → Prop}
    (isBracket : bracket.kind = .symbol .lparen)
    (params : (listed .round (parameter inner)).Delivers list (back ++ rest)
      fun list => list.items.map Param.shape = fields)
    (goesOn : ∀ found : List (Param Span), found.map Param.shape = fields →
      (behind found).Delivers back rest post) :
    (do if ← next (.symbol .lparen) then behind (← parameters inner) else otherwise).Delivers
      (bracket :: (list ++ back)) rest post := by
  have whole : (parameters inner).Delivers (bracket :: list) (back ++ rest)
      fun found => found.map Param.shape = fields :=
    .bindTake fun _ _ => params.bindLast fun _ same => .pure same
  refine .bindNext ?_
  rw [List.cons_append, leading_cons, isBracket, beq_self_eq_true, if_pos rfl]
  exact whole.bind goesOn

theorem delivers_closedBlock {block : Block}
    (delivers : (inner.block block).Delivers words (closing :: rest)
      fun found => found.map Stmt.shape = body) :
    (closedBlock inner block).Delivers (words ++ [closing]) rest
      fun found => found.map Stmt.shape = body :=
  delivers.bind fun _ same => .bindTake fun _ _ => .pure same

/-- The lines of a statement, from the end of its header through its `end`. -/
theorem delivers_body {block : Block} {wanted : Expectation} {start : Span} {stmt : Stmt Unit}
    {make : List (Stmt Span) → Span → Stmt Span} (isBreak : lineEnd.kind = .newline)
    (delivers : (inner.block block).Delivers words (closing :: rest)
      fun found => found.map Stmt.shape = body)
    (shape : ∀ found span, found.map Stmt.shape = body → (make found span).shape = stmt) :
    (do let _ ← expect .newline wanted
        let found ← closedBlock inner block
        return make found (← spanFrom start) : Parser (Stmt Span)).Delivers
      (lineEnd :: (words ++ [closing])) rest fun found => found.shape = stmt :=
  .bindExpect isBreak fun _ _ => (delivers_closedBlock delivers).bindLast fun found same =>
    .bindSpan fun span => .pure (shape found span same)

theorem delivers_classBare (opens : opening.kind = .keyword .kwClass) (isName : name.kind = .name)
    (isBreak : lineEnd.kind = .newline)
    (delivers : (inner.block .classBody).Delivers words (closing :: rest)
      fun found => found.map Stmt.shape = body) :
    (statement inner).Delivers (opening :: name :: lineEnd :: (words ++ [closing])) rest
      fun found => found.shape = .classBare name.text body () := by
  refine .bindSeen opens fun token kind => ?_
  simp only [kind]
  refine .bindTake fun _ _ => ?_
  refine .bindExpect isName fun nameToken nameSame => ?_
  refine .bindNext ?_
  rw [List.cons_append, leading_cons, isBreak]
  refine delivers_body isBreak delivers ?_
  rintro _ _ rfl
  simp [← nameSame]

theorem delivers_classFields (opens : opening.kind = .keyword .kwClass) (isName : name.kind = .name)
    (isBracket : bracket.kind = .symbol .lparen)
    (params : (listed .round (parameter inner)).Delivers list
      (lineEnd :: (words ++ closing :: rest)) fun list => list.items.map Param.shape = fields)
    (isBreak : lineEnd.kind = .newline)
    (delivers : (inner.block .classBody).Delivers words (closing :: rest)
      fun found => found.map Stmt.shape = body) :
    (statement inner).Delivers
      (opening :: name :: bracket :: (list ++ lineEnd :: (words ++ [closing]))) rest
      fun found => found.shape = .classFields name.text fields body () := by
  refine .bindSeen opens fun token kind => ?_
  simp only [kind]
  refine .bindTake fun _ _ => ?_
  refine .bindExpect isName fun nameToken nameSame => ?_
  refine delivers_parameters isBracket (by simpa using params) ?_
  rintro _ rfl
  refine delivers_body isBreak delivers ?_
  rintro _ _ rfl
  simp [← nameSame]

theorem delivers_acceptShared_none
    (noColons : leading (leading .endOfInput rest) words ≠ .symbol .doubleColon) :
    acceptShared.Delivers [] (name :: (words ++ rest)) fun found => found = false := by
  refine (delivers_peek _).bindLook fun token _ => ?_
  split
  · refine (delivers_peekSecond _).bindLook fun second seen => ?_
    rw [if_neg]
    · exact .pure rfl
    · rw [beq_iff_eq, seen, List.nil_append, List.tail_cons, leading_append]
      exact noColons
  · exact .pure rfl

theorem delivers_methodName {name : String} {post : Stmt Span → Prop}
    {behind : Bool → Token → Parser (Stmt Span)} (named : MethodName shared head name)
    (noColons : leading (leading .endOfInput rest) words ≠ .symbol .doubleColon)
    (goesOn : ∀ token : Token, token.text = name → (behind shared token).Delivers words rest post) :
    (do let shared ← acceptShared
        let name ← expect .name .methodName
        behind shared name).Delivers (head ++ words) rest post := by
  cases named with
  | own isName =>
    rename_i word
    refine (delivers_acceptShared_none noColons).bindLook ?_
    rintro _ rfl
    refine .bindExpect isName fun token same => goesOn token ?_
    rw [← Token.lexeme_text, same]
  | shared isOwner isSelf isColons isName =>
    rename_i owner colons word
    have accepts : acceptShared.Delivers [owner, colons] (([word] ++ words) ++ rest)
        fun found => found = true := by
      refine Delivers.bindPeek fun token same => ?_
      subst same
      rw [Token.lexeme_kind] at isOwner
      rw [Token.lexeme_text] at isSelf
      rw [isOwner, isSelf, beq_self_eq_true, beq_self_eq_true, Bool.and_self, if_pos rfl]
      refine (delivers_peekSecond _).bindLook fun second seen => ?_
      rw [show second.kind = .symbol .doubleColon by simpa [isColons] using seen,
        beq_self_eq_true, if_pos rfl]
      change Delivers _ ([token.lexeme] ++ [colons]) _ _
      refine .bindTake fun _ _ => ?_
      exact (delivers_take colons _).bindLast fun _ _ => .pure rfl
    refine accepts.bind ?_
    rintro _ rfl
    refine .bindExpect isName fun token same => goesOn token ?_
    rw [← Token.lexeme_text, same]

theorem delivers_methodValue {equals : Lexeme} {name : String} {value : Expr Unit}
    (opens : opening.kind = .keyword .kwDef) (named : MethodName shared head name)
    (isBracket : bracket.kind = .symbol .lparen)
    (params : (listed .round (parameter inner)).Delivers list (equals :: (words ++ rest))
      fun list => list.items.map Param.shape = fields) (isEquals : equals.kind = .symbol .assign)
    (delivers : (inner.expression false).Delivers words rest fun found => found.shape = value) :
    (statement inner).Delivers (opening :: (head ++ bracket :: (list ++ equals :: words))) rest
      fun found => found.shape = .methodValue shared name fields value () := by
  refine .bindSeen opens fun token kind => ?_
  simp only [kind]
  refine .bindTake fun _ _ => ?_
  refine delivers_methodName named (by simp [isBracket]) ?_
  rintro nameToken rfl
  refine delivers_parameters isBracket (by simpa using params) ?_
  rintro _ rfl
  refine .bindAccept isEquals ?_
  refine delivers.bindLast ?_
  rintro _ rfl
  refine .bindSpan fun _ => .pure ?_
  simp

theorem delivers_methodBlock {name : String} (opens : opening.kind = .keyword .kwDef)
    (named : MethodName shared head name) (isBracket : bracket.kind = .symbol .lparen)
    (params : (listed .round (parameter inner)).Delivers list
      (lineEnd :: (words ++ closing :: rest)) fun list => list.items.map Param.shape = fields)
    (isBreak : lineEnd.kind = .newline)
    (delivers : (inner.block .methodBody).Delivers words (closing :: rest)
      fun found => found.map Stmt.shape = body) :
    (statement inner).Delivers
      (opening :: (head ++ bracket :: (list ++ lineEnd :: (words ++ [closing])))) rest
      fun found => found.shape = .methodBlock shared name fields body () := by
  refine .bindSeen opens fun token kind => ?_
  simp only [kind]
  refine .bindTake fun _ _ => ?_
  refine delivers_methodName named (by simp [isBracket]) ?_
  rintro nameToken rfl
  refine delivers_parameters isBracket (by simpa using params) ?_
  rintro _ rfl
  refine .bindRefuse (by simp [isBreak]) ?_
  refine delivers_body isBreak delivers ?_
  rintro _ _ rfl
  simp

theorem delivers_forLoop {middle : Lexeme} {bindings : List String} {source : Expr Unit}
    (opens : opening.kind = .keyword .kwFor) (joined : Joined [.symbol .comma] head bindings)
    (isIn : middle.kind = .keyword .kwIn)
    (elements : (inner.expression false).Delivers list (lineEnd :: (words ++ closing :: rest))
      fun found => found.shape = source) (isBreak : lineEnd.kind = .newline)
    (delivers : (inner.block .forBody).Delivers words (closing :: rest)
      fun found => found.map Stmt.shape = body) :
    (statement inner).Delivers
      (opening :: (head ++ middle :: (list ++ lineEnd :: (words ++ [closing])))) rest
      fun found => found.shape = .forLoop bindings source body () := by
  refine .bindSeen opens fun token kind => ?_
  simp only [kind]
  refine .bindTake fun _ _ => ?_
  refine (delivers_names joined (by simp [isIn])).bind ?_
  rintro _ rfl
  refine .bindExpect isIn fun _ _ => Delivers.bind (by simpa using elements) ?_
  rintro _ rfl
  refine delivers_body isBreak delivers ?_
  rintro _ _ rfl
  simp

theorem delivers_whileLoop {condition : Expr Unit} (opens : opening.kind = .keyword .kwWhile)
    (test : (inner.expression false).Delivers head (lineEnd :: (words ++ closing :: rest))
      fun found => found.shape = condition) (isBreak : lineEnd.kind = .newline)
    (delivers : (inner.block .whileBody).Delivers words (closing :: rest)
      fun found => found.map Stmt.shape = body) :
    (statement inner).Delivers (opening :: (head ++ lineEnd :: (words ++ [closing]))) rest
      fun found => found.shape = .whileLoop condition body () := by
  refine .bindSeen opens fun token kind => ?_
  simp only [kind]
  refine .bindTake fun _ _ => Delivers.bind (by simpa using test) ?_
  rintro _ rfl
  refine delivers_body isBreak delivers ?_
  rintro _ _ rfl
  simp

theorem delivers_statement_short {post : Stmt Span → Prop}
    (begins : (Phrase.short true).begins (leading (leading .endOfInput rest) words) = true)
    (delivers : (shortStatement inner true).Delivers words rest post) :
    (statement inner).Delivers words rest post := by
  refine Delivers.bindKind fun token seen => ?_
  rw [leading_append] at seen
  rw [← seen] at begins
  split
  case h_6 => exact delivers
  all_goals
    rename_i kind
    simp [Phrase.begins, beginsPrimary, kind] at begins

/-! ## Lines -/

/-- The lines of a block behind those that have been read, from the start of a line on. -/
def linesFrom (inner : Nested) (block : Block)
    (before : List (Stmt Span)) : Parser (List (Stmt Span)) := do
  let more ← blockLine inner block
  foldWhile (ofKind .newline)
    (fun body _ => return body ++ (← blockLine inner block)) (before ++ more)

theorem block_eq_linesFrom (inner : Nested) (block : Block) :
    Grammar.block inner block = linesFrom inner block [] := rfl

section Lines

variable {block : Block} {before : List (Stmt Span)} {lineEnd : Lexeme}
variable {post : List (Stmt Span) → Prop}

theorem delivers_lineEnd (isBreak : lineEnd.kind = .newline)
    (delivers : (linesFrom inner block before).Delivers words rest post) :
    (foldWhile (ofKind .newline)
      (fun body _ => return body ++ (← blockLine inner block)) before).Delivers
      (lineEnd :: words) rest post := by
  rw [← bind_pure (foldWhile _ _ _)]
  refine delivers_whileKind_enter isBreak fun token _ => ?_
  simp only [bind_assoc, pure_bind, bind_pure]
  exact delivers

theorem delivers_noLine (ends : block.endsAt (leading .endOfInput rest) = true) :
    (linesFrom inner block before).Delivers [] rest fun found => found = before := by
  have noBreak : leading .endOfInput rest ≠ .newline := by
    intro isBreak
    rw [isBreak] at ends
    cases block <;> simp [Block.endsAt] at ends
  have nothing : (blockLine inner block).Delivers [] rest fun found => found = [] := by
    refine Delivers.bindKind fun token seen => ?_
    dsimp only
    rw [seen, List.nil_append, ends, Bool.or_true, if_pos rfl]
    exact .pure rfl
  refine nothing.bindLook ?_
  rintro _ rfl
  rw [List.append_nil]
  exact delivers_whileKind_stop noBreak

theorem delivers_emptyLine (isBreak : lineEnd.kind = .newline)
    (delivers : (linesFrom inner block before).Delivers words rest post) :
    (linesFrom inner block before).Delivers (lineEnd :: words) rest post := by
  have nothing : (blockLine inner block).Delivers [] (lineEnd :: words ++ rest)
      fun found => found = [] := by
    refine Delivers.bindKind fun token seen => ?_
    dsimp only
    rw [seen, List.nil_append, List.cons_append, leading_cons, isBreak, beq_self_eq_true,
      Bool.true_or, if_pos rfl]
    exact .pure rfl
  refine nothing.bindLook ?_
  rintro _ rfl
  rw [List.append_nil]
  exact delivers_lineEnd isBreak delivers

theorem begins_statement {kind : Kind} (begins : Phrase.statement.begins kind = true)
    (block : Block) :
    kind ≠ .newline ∧ block.endsAt kind = false ∧ kind ≠ .endOfInput := by
  have notEnd : kind ≠ .keyword .kwEnd := by
    rintro rfl
    simp [Phrase.begins, beginsPrimary] at begins
  have notElse : kind ≠ .keyword .kwElse := by
    rintro rfl
    simp [Phrase.begins, beginsPrimary] at begins
  have notOver : kind ≠ .endOfInput := by
    rintro rfl
    simp [Phrase.begins, beginsPrimary] at begins
  refine ⟨?_, ?_, notOver⟩
  · rintro rfl
    simp [Phrase.begins, beginsPrimary] at begins
  · cases block <;> simp [Block.endsAt, notEnd, notElse, notOver]

theorem delivers_line {head : List Lexeme} {first : Stmt Unit}
    (begins : Phrase.statement.begins (leading .newline head) = true)
    (statementDelivers : (statement inner).Delivers head (lineEnd :: (words ++ rest))
      fun found => found.shape = first) (isBreak : lineEnd.kind = .newline)
    (goesOn : ∀ found : Stmt Span, found.shape = first →
      (linesFrom inner block (before ++ [found])).Delivers words rest post) :
    (linesFrom inner block before).Delivers (head ++ lineEnd :: words) rest post := by
  have one : (blockLine inner block).Delivers head (lineEnd :: (words ++ rest))
      fun found => ∃ value, found = [value] ∧ value.shape = first := by
    refine Delivers.bindKind fun token seen => ?_
    rw [leading_append, leading_cons, isBreak] at seen
    rw [← seen] at begins
    obtain ⟨noBreak, noEnd, notOver⟩ := begins_statement begins block
    dsimp only
    rw [beq_eq_false_iff_ne.mpr noBreak, noEnd, beq_eq_false_iff_ne.mpr notOver]
    refine statementDelivers.bindLast fun value same => .bindNext ?_
    rw [List.nil_append, leading_cons, isBreak, beq_self_eq_true, if_pos rfl]
    exact .pure ⟨value, rfl, same⟩
  refine one.bind ?_
  rintro _ ⟨value, rfl, same⟩
  exact delivers_lineEnd isBreak (goesOn value same)

end Lines

end Parlance.Grammar
