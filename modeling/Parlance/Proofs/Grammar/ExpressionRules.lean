import Parlance.Proofs.Grammar.Rules

/-!
Contract: what the parsers of expressions give on the words of their rules.

Owns: one law for each rule of expressions. Chains of members, calls, indexes and binary operators
are built from the left by loops, so their laws speak of the chain that stands so far
(`membersFrom`, `indexedFrom`, `binaryFrom`): the parser of a chain that begins with a tree goes on
as the loop does with that tree in hand.
-/

namespace Parlance.Grammar

open Lexeme Parlance.Parser

variable {inner : Nested} {word opening closing : Lexeme} {words rest : List Lexeme}
variable {post : Expr Span → Prop} {colon : Lexeme} {front : List Lexeme} {value : Expr Span}

/-! ## Primaries -/

theorem delivers_number (isNumber : word.kind = .number) :
    (primary inner).Delivers [word] rest fun found => found.shape = .number word.text () := by
  refine Delivers.bindPeek fun token same => ?_
  subst same
  rw [Token.lexeme_kind] at isNumber
  simp only [isNumber]
  exact .bindTake fun _ _ => .pure rfl

theorem delivers_string (isString : word.kind = .string) :
    (primary inner).Delivers [word] rest
      fun found => found.shape = .string word.text word.quote () := by
  refine Delivers.bindPeek fun token same => ?_
  subst same
  rw [Token.lexeme_kind] at isString
  simp only [isString]
  exact .bindTake fun _ _ => .pure rfl

theorem delivers_boolean (isBoolean : word.kind = .boolean) :
    (primary inner).Delivers [word] rest
      fun found => found.shape = .boolean (word.text == "true") () := by
  refine Delivers.bindPeek fun token same => ?_
  subst same
  rw [Token.lexeme_kind] at isBoolean
  simp only [isBoolean]
  exact .bindTake fun _ _ => .pure rfl

theorem delivers_nil (isNil : word.kind = .nil) :
    (primary inner).Delivers [word] rest fun found => found.shape = .nil () := by
  refine Delivers.bindPeek fun token same => ?_
  subst same
  rw [Token.lexeme_kind] at isNil
  simp only [isNil]
  exact .bindTake fun _ _ => .pure rfl

theorem delivers_path {names : List String} (joined : Joined [.symbol .doubleColon] words names)
    (stops : leading .endOfInput rest ≠ .symbol .doubleColon) :
    (primary inner).Delivers words rest fun found =>
      (∀ name, names = [name] → found.shape = .variable name ()) ∧
        (2 ≤ names.length → found.shape = .path names ()) := by
  obtain ⟨first, others, rfl, isName⟩ := joined.begins
  refine .bindSeen isName fun token kind => ?_
  simp only [kind]
  refine .bindTake fun taken takenSame => ?_
  rw [show taken.text = first.text by rw [← Token.lexeme_text, takenSame]]
  refine (delivers_segments joined (by simpa using stops)).bindLast ?_
  rintro _ rfl
  split
  · refine .pure ⟨fun name same => ?_, fun several => ?_⟩
    · rw [← (List.cons.inj same).1]
      rfl
    · simp at several
  · rename_i several
    refine .bindSpan fun _ => .pure ⟨fun name same => ?_, fun _ => rfl⟩
    exact absurd same (several name)

theorem delivers_parenthesized {values : List (Expr Unit)} {divided : Bool}
    (opens : opening.kind = .symbol .lparen)
    (list : (listed .round (inner.expression false)).Delivers words rest
      fun list => list.items.map Expr.shape = values ∧ list.divided = divided) :
    (primary inner).Delivers (opening :: words) rest fun found =>
      (∀ value, values = [value] → divided = false → found.shape = .grouping value ()) ∧
        (values = [] ∨ divided = true → found.shape = .tuple values ()) := by
  refine .bindSeen opens fun token kind => ?_
  simp only [kind]
  refine .bindTake fun _ _ => list.bindLast ?_
  rintro ⟨items, isDivided, close⟩ ⟨rfl, rfl⟩
  refine .bindSpan fun _ => ?_
  dsimp only
  split
  · refine .pure ⟨?_, by simp⟩
    rintro value same -
    obtain ⟨rfl⟩ := same
    rfl
  · rename_i other
    refine .pure ⟨?_, fun _ => by simp⟩
    rintro value same rfl
    obtain ⟨item, rfl, -⟩ := List.map_eq_singleton_iff.mp same
    exact (other item rfl rfl).elim

theorem delivers_entry {key : Lexeme} {value : Expr Unit} (isKey : key.kind = .name)
    (isColon : colon.kind = .symbol .colon)
    (delivers : (inner.expression false).Delivers words rest fun found => found.shape = value) :
    (entry inner).Delivers (key :: colon :: words) rest
      fun found => found.shape = .mk key.text value () := by
  refine .bindExpect isKey fun keyToken keySame => ?_
  refine .bindExpect isColon fun _ _ => delivers.bindLast ?_
  rintro found rfl
  exact .pure (by rw [← keySame]; rfl)

theorem delivers_emptyDictionary {back : List Lexeme} (opens : opening.kind = .symbol .lbracket)
    (before : Breaks front) (isColon : colon.kind = .symbol .colon) (after : Breaks back)
    (closes : closing.kind = .symbol .rbracket) :
    (primary inner).Delivers (opening :: (front ++ colon :: (back ++ [closing]))) rest
      fun found => found.shape = .dictionary [] () := by
  refine .bindSeen opens fun token kind => ?_
  simp only [kind]
  refine .bindTake fun _ _ => ?_
  refine (delivers_skipLineBreaks before (by simp [isColon])).bind fun _ _ => ?_
  refine .bindAccept isColon ?_
  refine (delivers_skipLineBreaks after (by simp [closes])).bind fun _ _ => ?_
  refine .bindExpect closes fun _ _ => ?_
  exact .bindSpan fun _ => .pure rfl

theorem delivers_dictionary {key : Lexeme} {entries : List (Entry Unit)}
    (opens : opening.kind = .symbol .lbracket) (before : Breaks front) (isKey : key.kind = .name)
    (isColon : colon.kind = .symbol .colon)
    (list : (listed .square (entry inner)).Delivers (key :: colon :: words) rest
      fun list => list.items.map Entry.shape = entries) :
    (primary inner).Delivers (opening :: (front ++ key :: colon :: words)) rest
      fun found => found.shape = .dictionary entries () := by
  refine .bindSeen opens fun token kind => ?_
  simp only [kind]
  refine .bindTake fun _ _ => ?_
  refine (delivers_skipLineBreaks before (by simp [isKey])).bind fun _ _ => ?_
  refine .bindRefuse (by simp [isKey]) ?_
  refine .bindNext ?_
  simp only [List.cons_append, leading_cons, isKey, beq_self_eq_true, if_true]
  refine (delivers_peekSecond _).bindLook fun second secondKind => ?_
  rw [show second.kind = .symbol .colon by simpa [isColon] using secondKind, beq_self_eq_true]
  refine list.bindLast ?_
  rintro ⟨items, divided, close⟩ rfl
  refine .bindSpan fun _ => .pure ?_
  simp

theorem delivers_array {values : List (Expr Unit)} (opens : opening.kind = .symbol .lbracket)
    (before : Breaks front) (filled : leading (leading .endOfInput rest) words ≠ .newline)
    (noColon : leading (leading .endOfInput rest) words ≠ .symbol .colon)
    (noEntry : leading (leading .endOfInput rest) words = .name →
      leading .endOfInput (words ++ rest).tail ≠ .symbol .colon)
    (list : (listed .square (inner.expression false)).Delivers words rest
      fun list => list.items.map Expr.shape = values) :
    (primary inner).Delivers (opening :: (front ++ words)) rest
      fun found => found.shape = .array values () := by
  have arrayed : ∀ start, (array inner start).Delivers words rest
      fun found => found.shape = .array values () := by
    intro start
    refine list.bindLast ?_
    rintro ⟨items, divided, close⟩ rfl
    refine .bindSpan fun _ => .pure ?_
    simp
  refine .bindSeen opens fun token kind => ?_
  simp only [kind]
  refine .bindTake fun _ _ => ?_
  refine (delivers_skipLineBreaks before (by simpa using filled)).bind fun _ _ => ?_
  refine .bindRefuse (by simpa using noColon) ?_
  refine .bindNext ?_
  split
  · rename_i isName
    rw [leading_append, beq_iff_eq] at isName
    refine (delivers_peekSecond _).bindLook fun second secondKind => ?_
    have other : second.kind ≠ .symbol .colon := by
      rw [secondKind]
      exact noEntry isName
    rw [if_neg (by simpa using other)]
    exact arrayed _
  · exact arrayed _

theorem delivers_closureLine {arrow : Lexeme} {head : List Lexeme} {params : List String}
    {body : Stmt Unit} (opens : opening.kind = .keyword .kwFn)
    (joined : Joined [.symbol .comma] head params) (isArrow : arrow.kind = .symbol .arrow)
    (noDo : leading closing.kind words ≠ .keyword .kwDo)
    (delivers : (shortStatement inner false).Delivers words (closing :: rest)
      fun found => found.shape = body) (closes : closing.kind = .keyword .kwEnd) :
    (primary inner).Delivers (opening :: (head ++ arrow :: (words ++ [closing]))) rest
      fun found => found.shape = .closureLine params body () := by
  refine .bindSeen opens fun token kind => ?_
  simp only [kind]
  refine .bindTake fun _ _ => ?_
  refine (delivers_names joined (by simp [isArrow])).bind ?_
  rintro _ rfl
  refine .bindExpect isArrow fun _ _ => ?_
  refine .bindRefuse (by simpa using noDo) ?_
  refine delivers.bind ?_
  rintro found rfl
  refine .bindExpect closes fun _ _ => ?_
  exact .bindSpan fun _ => .pure rfl

theorem delivers_closureBlock {arrow start lineEnd : Lexeme} {head : List Lexeme}
    {params : List String} {body : List (Stmt Unit)} (opens : opening.kind = .keyword .kwFn)
    (joined : Joined [.symbol .comma] head params) (isArrow : arrow.kind = .symbol .arrow)
    (isDo : start.kind = .keyword .kwDo) (isBreak : lineEnd.kind = .newline)
    (delivers : (inner.block .closureBody).Delivers words (closing :: rest)
      fun found => found.map Stmt.shape = body) (closes : closing.kind = .keyword .kwEnd) :
    (primary inner).Delivers
      (opening :: (head ++ arrow :: start :: lineEnd :: (words ++ [closing]))) rest
      fun found => found.shape = .closureBlock params body () := by
  refine .bindSeen opens fun token kind => ?_
  simp only [kind]
  refine .bindTake fun _ _ => ?_
  refine (delivers_names joined (by simp [isArrow])).bind ?_
  rintro _ rfl
  refine .bindExpect isArrow fun _ _ => ?_
  refine .bindAccept isDo ?_
  refine .bindExpect isBreak fun _ _ => ?_
  refine delivers.bind ?_
  rintro found rfl
  refine .bindExpect closes fun _ _ => ?_
  refine .bindSpan fun _ => .pure ?_
  simp

/-! ## Members and calls -/

theorem delivers_membersFrom_stop (noCall : leading .endOfInput rest ≠ .symbol .lparen)
    (noDot : leading .endOfInput rest ≠ .symbol .dot) :
    (membersFrom inner value).Delivers [] rest fun found => found = value := by
  refine (delivers_whileKind_stop noCall).bindLook ?_
  rintro _ rfl
  exact delivers_whileKind_stop noDot

theorem delivers_membersFrom_call {callee : Expr Span} {list : List Lexeme}
    {args : List (Expr Unit)} (opens : opening.kind = .symbol .lparen)
    (delivers : (listed .round (inner.expression false)).Delivers list (words ++ rest)
      fun list => list.items.map Expr.shape = args)
    (goesOn : ∀ found : Expr Span, found.shape = .call callee.shape args () →
      (membersFrom inner found).Delivers words rest post) :
    (membersFrom inner callee).Delivers (opening :: (list ++ words)) rest post := by
  refine delivers_whileKind_enter opens fun token _ => ?_
  simp only [bind_assoc, pure_bind]
  refine delivers.bind ?_
  rintro ⟨items, divided, close⟩ rfl
  refine goesOn _ ?_
  simp

theorem delivers_membersFrom_access {owner : Expr Span} {dot member : Lexeme}
    (isDot : dot.kind = .symbol .dot) (isName : member.kind = .name)
    (goesOn : ∀ found : Expr Span, found.shape = .access owner.shape member.text () →
      (membersFrom inner found).Delivers words rest post) :
    (membersFrom inner owner).Delivers (dot :: member :: words) rest post := by
  refine (delivers_whileKind_stop (by simp [isDot])).bindLook ?_
  rintro _ rfl
  rw [← bind_pure (foldWhile _ _ _)]
  refine delivers_whileKind_enter isDot fun token _ => ?_
  simp only [bind_assoc, bind_pure]
  refine .bindExpect isName fun found foundSame => ?_
  refine goesOn _ ?_
  rw [← foundSame]
  rfl

/-! ## Indexes -/

theorem delivers_indexedFrom_stop (noIndex : leading .endOfInput rest ≠ .symbol .lbracket) :
    (indexedFrom inner value).Delivers [] rest fun found => found = value :=
  delivers_whileKind_stop noIndex

theorem delivers_indexedFrom_index {owner : Expr Span} {place : List Lexeme} {index : Expr Unit}
    (opens : opening.kind = .symbol .lbracket)
    (delivers : (inner.expression false).Delivers place (closing :: (words ++ rest))
      fun found => found.shape = index) (closes : closing.kind = .symbol .rbracket)
    (goesOn : ∀ found : Expr Span, found.shape = .index owner.shape index () →
      (indexedFrom inner found).Delivers words rest post) :
    (indexedFrom inner owner).Delivers (opening :: (place ++ closing :: words)) rest post := by
  rw [← bind_pure (indexedFrom inner owner)]
  refine delivers_whileKind_enter opens fun token _ => ?_
  simp only [bind_assoc, pure_bind, bind_pure]
  change Delivers _ (place ++ ([closing] ++ words)) rest post
  refine delivers.bind ?_
  rintro found rfl
  refine .bindExpect closes fun _ _ => ?_
  exact .bindSpan fun _ => goesOn _ rfl

/-! ## Operators -/

/-- A shape behind a number of signs. -/
def signed (op : UnaryOp) (count : Nat) (value : Expr Unit) : Expr Unit :=
  count.repeat (fun value => .unary op value ()) value

theorem shape_foldr_unary (op : UnaryOp) (spans : List Span) (value : Expr Span) :
    (spans.foldr (fun span value => .unary op value (span.through value.mark)) value).shape =
      signed op spans.length value.shape := by
  induction spans with
  | nil => rfl
  | cons span spans ih =>
    simp only [List.foldr_cons, List.length_cons, signed, Nat.repeat] at ih ⊢
    rw [← ih]
    rfl

theorem signed_succ (op : UnaryOp) (count : Nat) (value : Expr Unit) :
    signed op (count + 1) value = signed op count (.unary op value ()) := by
  induction count with
  | zero => rfl
  | succ count ih =>
    simp only [signed, Nat.repeat] at ih ⊢
    rw [ih]

theorem delivers_prefixedFrom_operand {op : UnaryOp} {operand : Parser (Expr Span)}
    {spans : List Span} {value : Expr Unit}
    (noSign : leading (leading .endOfInput rest) words ≠ op.kind)
    (delivers : operand.Delivers words rest fun found => found.shape = value) :
    (prefixedFrom op operand spans).Delivers words rest
      fun found => found.shape = signed op spans.length value := by
  refine (delivers_whileKind_stop (by rwa [leading_append])).bindLook ?_
  rintro _ rfl
  refine delivers.bindLast ?_
  rintro found rfl
  exact .pure (shape_foldr_unary op _ found)

theorem delivers_prefixedFrom_sign {op : UnaryOp} {operand : Parser (Expr Span)} {spans : List Span}
    (isOp : word.kind = op.kind)
    (goesOn : ∀ span, (prefixedFrom op operand (spans ++ [span])).Delivers words rest post) :
    (prefixedFrom op operand spans).Delivers (word :: words) rest post := by
  refine delivers_whileKind_enter isOp fun token _ => ?_
  rw [pure_bind]
  exact goesOn token.span

/-- Binary operators of one rank behind what stands so far. The tightest rank has none. -/
def binaryFrom (inner : Nested) :
    Nat → Expr Span → Parser (Expr Span)
  | 0, value => pure value
  | looseness + 1, value =>
    operatorsFrom (looseness + 1) (binary inner looseness) value

theorem delivers_binaryFrom_stop {looseness : Nat}
    (noOp : ∀ op, BinaryOp.ofKind? (leading .endOfInput rest) = some op → op.looseness ≠ looseness) :
    (binaryFrom inner looseness value).Delivers [] rest fun found => found = value := by
  cases looseness with
  | zero => exact .pure rfl
  | succ looseness =>
    refine delivers_foldWhile_stop fun token seen => ?_
    unfold operatorAt
    split
    · rename_i op isOp
      rw [seen] at isOp
      rw [if_neg (by simpa using noOp op isOp)]
    · rfl

theorem delivers_binaryFrom_operator {looseness : Nat} {op : BinaryOp} {left : Expr Span}
    {right : Expr Unit} {back : List Lexeme} (isOp : BinaryOp.ofKind? word.kind = some op)
    (rank : op.looseness = looseness + 1)
    (delivers : (binary inner looseness).Delivers back (words ++ rest)
      fun found => found.shape = right)
    (goesOn : ∀ found : Expr Span, found.shape = .binary left.shape op right () →
      (binaryFrom inner (looseness + 1) found).Delivers words rest post) :
    (binaryFrom inner (looseness + 1) left).Delivers (word :: (back ++ words)) rest post := by
  rw [← bind_pure (binaryFrom inner (looseness + 1) left)]
  refine delivers_foldWhile_enter fun token same => ⟨op, ?_, ?_⟩
  · rw [operatorAt, ← Token.lexeme_kind, same, isOp]
    exact if_pos (by simpa using rank)
  · simp only [bind_assoc, pure_bind, bind_pure]
    refine delivers.bind ?_
    rintro found rfl
    exact goesOn _ rfl

/-! ## Conditionals -/

section Conditionals

variable {line : Bool} {condition : Expr Span} {start : Span}

theorem delivers_conditional {head : List Lexeme} {condition : Expr Unit} {post : Expr Span → Prop}
    (opens : opening.kind = .keyword .kwIf)
    (test : (inner.expression false).Delivers head (words ++ rest)
      fun found => found.shape = condition)
    (goesOn : ∀ start found, found.shape = condition →
      (branches inner line start found).Delivers words rest post) :
    (expression inner line).Delivers (opening :: (head ++ words)) rest post := by
  refine .bindNext ?_
  rw [List.cons_append, leading_cons, opens, beq_self_eq_true, if_pos rfl]
  exact .bindTake fun _ _ => test.bind fun found same => goesOn _ found same

theorem delivers_ifLine {middle : Lexeme} {thenDo : Stmt Unit}
    (isThen : middle.kind = .keyword .kwThen)
    (delivers : (shortStatement inner line).Delivers words rest fun found => found.shape = thenDo)
    (noElse : leading .endOfInput rest ≠ .keyword .kwElse) :
    (branches inner line start condition).Delivers (middle :: words) rest
      fun found => found.shape = .ifLine condition.shape thenDo () := by
  refine .bindAccept isThen ?_
  refine delivers.bindLast ?_
  rintro _ rfl
  refine .bindRefuse noElse ?_
  exact .bindSpan fun _ => .pure rfl

theorem delivers_ifLineElse {middle other : Lexeme} {elseWords : List Lexeme}
    {thenDo elseDo : Stmt Unit} (isThen : middle.kind = .keyword .kwThen)
    (delivers : (shortStatement inner line).Delivers words (other :: (elseWords ++ rest))
      fun found => found.shape = thenDo) (isElse : other.kind = .keyword .kwElse)
    (elseDelivers : (shortStatement inner line).Delivers elseWords rest
      fun found => found.shape = elseDo) :
    (branches inner line start condition).Delivers (middle :: (words ++ other :: elseWords)) rest
      fun found => found.shape = .ifLineElse condition.shape thenDo elseDo () := by
  refine .bindAccept isThen ?_
  refine delivers.bind ?_
  rintro _ rfl
  refine .bindAccept isElse ?_
  refine elseDelivers.bindLast ?_
  rintro _ rfl
  exact .bindSpan fun _ => .pure rfl

theorem delivers_ifBlock {lineEnd : Lexeme} {thenDo : List (Stmt Unit)}
    (isBreak : lineEnd.kind = .newline)
    (delivers : (inner.block .thenBranch).Delivers words (closing :: rest)
      fun found => found.map Stmt.shape = thenDo) (closes : closing.kind = .keyword .kwEnd) :
    (branches inner line start condition).Delivers (lineEnd :: (words ++ [closing])) rest
      fun found => found.shape = .ifBlock condition.shape thenDo () := by
  refine .bindRefuse (by simp [isBreak]) ?_
  refine .bindExpect isBreak fun _ _ => delivers.bind ?_
  rintro _ rfl
  refine .bindRefuse (by simp [closes]) ?_
  refine .bindTake fun _ _ => ?_
  refine .bindSpan fun _ => .pure ?_
  simp

theorem delivers_ifBlockElse {lineEnd other elseEnd : Lexeme} {elseWords : List Lexeme}
    {thenDo elseDo : List (Stmt Unit)} (isBreak : lineEnd.kind = .newline)
    (delivers : (inner.block .thenBranch).Delivers words
      (other :: elseEnd :: (elseWords ++ closing :: rest))
      fun found => found.map Stmt.shape = thenDo) (isElse : other.kind = .keyword .kwElse)
    (isElseBreak : elseEnd.kind = .newline)
    (elseDelivers : (inner.block .elseBranch).Delivers elseWords (closing :: rest)
      fun found => found.map Stmt.shape = elseDo) :
    (branches inner line start condition).Delivers
      (lineEnd :: (words ++ other :: elseEnd :: (elseWords ++ [closing]))) rest
      fun found => found.shape = .ifBlockElse condition.shape thenDo elseDo () := by
  refine .bindRefuse (by simp [isBreak]) ?_
  refine .bindExpect isBreak fun _ _ => Delivers.bind (by simpa using delivers) ?_
  rintro _ rfl
  refine .bindAccept isElse ?_
  refine .bindExpect isElseBreak fun _ _ => elseDelivers.bind ?_
  rintro _ rfl
  refine .bindTake fun _ _ => ?_
  refine .bindSpan fun _ => .pure ?_
  simp

end Conditionals

/-- An expression that does not begin with `if` is made of operators. -/
theorem delivers_expression {line : Bool} {post : Expr Span → Prop}
    (noIf : leading (leading .endOfInput rest) words ≠ .keyword .kwIf)
    (delivers : (binary inner BinaryOp.loosest).Delivers words rest post) :
    (expression inner line).Delivers words rest post := by
  refine .bindNext ?_
  rw [leading_append, beq_eq_false_iff_ne.mpr noIf]
  exact delivers

end Parlance.Grammar
