import Parlance.Proofs.Grammar.ExpressionRules
import Parlance.Proofs.Grammar.StatementRules

/-!
Contract: what the grammar derives, the parsers read.

Owns: the induction over derivations that joins the laws of the rules. For each kind of phrase
`Complete` says what its parser does on words that form a tree: where a phrase can be continued by
the word behind it, only before words that do not continue it, and for chains with the parser of the
rest of the chain in view. Does not own: that the parsers read nothing else.
-/

namespace Parlance.Grammar

open Lexeme Parlance.Parser

variable {inner : Nested} {words : List Lexeme} {next : Kind}

/-- Before any word of the kind `next`, the parser takes the words and gives the tree. -/
def Gives {α β : Type} (parser : Parser α) (shape : α → β) (words : List Lexeme) (next : Kind)
    (tree : β) : Prop :=
  ∀ rest, leading .endOfInput rest = next →
    parser.Delivers words rest fun found => shape found = tree

/-- Before words that lead to the kind `next`, the parser takes its own words and goes on as
`behind` does with the tree in hand. -/
def Starts (parser : Parser (Expr Span)) (behind : Expr Span → Parser (Expr Span))
    (words : List Lexeme) (next : Kind) (tree : Expr Unit) : Prop :=
  ∀ more rest post, leading (leading .endOfInput rest) more = next →
    (∀ found : Expr Span, found.shape = tree → (behind found).Delivers more rest post) →
      parser.Delivers (words ++ more) rest post

def operandOf (inner : Nested) : UnaryOp → Parser (Expr Span)
  | .minus => indexed inner
  | .not => prefixedFrom .minus (indexed inner) []

/-- What the parser of a phrase does on words that form a tree before a word of the kind `next`. -/
def Complete (inner : Nested) :
    (phrase : Phrase) → List Lexeme → Kind → phrase.Tree Unit → Prop
  | .lines block, words, next, (body : List (Stmt Unit)) =>
    ∀ before, Gives (linesFrom inner block before) (List.map Stmt.shape) words next
      (before.map Stmt.shape ++ body)
  | .nestedLines block, words, next, body =>
    Gives (inner.block block) (List.map Stmt.shape) words next body
  | .statement, words, next, stmt =>
    next = .newline → Gives (statement inner) Stmt.shape words next stmt
  | .short line, words, next, stmt =>
    closes line next = true → Gives (shortStatement inner line) Stmt.shape words next stmt
  | .expression line, words, next, value =>
    closes line next = true → Gives (expression inner line) Expr.shape words next value
  | .nested line, words, next, value =>
    closes line next = true → Gives (inner.expression line) Expr.shape words next value
  | .binary looseness, words, next, value =>
    continuesChain next = false →
      (∀ op, BinaryOp.ofKind? next = some op → looseness ≤ op.looseness) →
        Starts (binary inner looseness) (binaryFrom inner looseness) words next value
  | .prefixed op, words, next, value =>
    continuesChain next = false →
      ∀ spans, Gives (prefixedFrom op (operandOf inner op) spans) Expr.shape words next
        (signed op spans.length value)
  | .indexed, words, next, value =>
    next ≠ .symbol .lparen → next ≠ .symbol .dot → next ≠ .symbol .doubleColon →
      Starts (indexed inner) (indexedFrom inner) words next value
  | .members, words, next, value =>
    next ≠ .symbol .doubleColon → Starts (members inner) (membersFrom inner) words next value
  | .primary, words, next, value =>
    next ≠ .symbol .doubleColon → Gives (primary inner) Expr.shape words next value
  | .item part, words, next, value =>
    closesValue next = true → Gives (part.parser inner) part.shape words next value
  -- The line breaks at the front of a list may have been taken already.
  | .items part bracket, words, next, list =>
    ∀ front others before divided, words = front ++ others → Breaks front →
      Gives (itemsFrom bracket (part.parser inner) before divided)
        (fun found => (found.items.map part.shape, found.divided)) others next
        (before.map part.shape ++ list.1, divided || list.2)

/-! ## From tight phrases to loose ones -/

/-- A parser that starts a chain gives the chain's tree where the chain cannot go on. -/
theorem Starts.gives {parser : Parser (Expr Span)} {behind : Expr Span → Parser (Expr Span)}
    {value : Expr Unit} (starts : Starts parser behind words next value)
    (stops : ∀ (found : Expr Span) (rest : List Lexeme), leading .endOfInput rest = next →
      (behind found).Delivers [] rest fun result => result = found) :
    Gives parser Expr.shape words next value := by
  intro rest seen
  rw [← List.append_nil words]
  refine starts [] rest _ seen fun found same => (stops found rest seen).weaken ?_
  rintro _ rfl
  exact same

/-- A parser that gives a tree, and then goes on, starts a chain. -/
theorem Gives.starts {parser : Parser (Expr Span)} {behind : Expr Span → Parser (Expr Span)}
    {value : Expr Unit} (gives : Gives parser Expr.shape words next value) :
    Starts (parser >>= behind) behind words next value := by
  intro more rest post seen goesOn
  exact (gives (more ++ rest) (by rw [leading_append]; exact seen)).bind goesOn

section Lifts

variable {value : Expr Unit}

theorem complete_name {word : Lexeme} (isName : word.kind = .name) :
    Complete inner .primary [word] next (.variable word.text ()) := by
  intro noColons rest seen
  refine (delivers_path (.one isName) (by rw [seen]; exact noColons)).weaken ?_
  exact fun found shapes => shapes.1 _ rfl

theorem complete_ofPrimary (complete : Complete inner .primary words next value) :
    Complete inner .members words next value := by
  intro noColons
  rw [members]
  exact (complete noColons).starts

theorem complete_ofMembers (complete : Complete inner .members words next value) :
    Complete inner .indexed words next value := by
  intro noCall noDot noColons
  rw [indexed]
  refine ((complete noColons).gives fun found rest seen => ?_).starts
  exact delivers_membersFrom_stop (by rw [seen]; exact noCall) (by rw [seen]; exact noDot)

theorem continues_none (ends : continuesChain next = false) :
    next ≠ .symbol .lparen ∧ next ≠ .symbol .lbracket ∧ next ≠ .symbol .dot ∧
      next ≠ .symbol .doubleColon := by
  refine ⟨?_, ?_, ?_, ?_⟩ <;> (rintro rfl; simp [continuesChain] at ends)

theorem complete_ofIndexed (complete : Complete inner .indexed words next value)
    (begins : ∀ behind, Phrase.indexed.begins (leading behind words) = true) :
    Complete inner (.prefixed .minus) words next value := by
  intro ends spans rest seen
  obtain ⟨noCall, noIndex, noDot, noColons⟩ := continues_none ends
  refine delivers_prefixedFrom_operand ?_ ?_
  · intro isMinus
    have opens := begins (leading .endOfInput rest)
    simp [isMinus, UnaryOp.kind, Phrase.begins, beginsPrimary] at opens
  · refine (complete noCall noDot noColons).gives (fun found rest seen => ?_) rest seen
    exact delivers_indexedFrom_stop (by rw [seen]; exact noIndex)

theorem complete_ofSigned (complete : Complete inner (.prefixed .minus) words next value)
    (begins : ∀ behind, (Phrase.prefixed .minus).begins (leading behind words) = true) :
    Complete inner (.prefixed .not) words next value := by
  intro ends spans rest seen
  have operand := complete ends [] rest seen
  refine delivers_prefixedFrom_operand ?_ operand
  intro isNot
  have opens := begins (leading .endOfInput rest)
  simp [isNot, UnaryOp.kind, Phrase.begins, beginsPrimary] at opens

theorem complete_ofOperand (complete : Complete inner (.prefixed .not) words next value) :
    Complete inner (.binary 0) words next value := by
  intro ends _ more rest post seen goesOn
  rw [← bind_pure (binary inner 0)]
  exact (Gives.starts (complete ends [])) more rest post seen goesOn

theorem complete_ofTighter {looseness : Nat}
    (complete : Complete inner (.binary looseness) words next value) :
    Complete inner (.binary (looseness + 1)) words next value := by
  intro ends rank
  rw [binary]
  refine ((complete ends fun op isOp => ?_).gives fun found rest seen => ?_).starts
  · exact Nat.le_of_succ_le (rank op isOp)
  · refine delivers_binaryFrom_stop fun op isOp => ?_
    rw [seen] at isOp
    exact Nat.ne_of_gt (rank op isOp)

theorem complete_binary (complete : Complete inner (.prefixed .not) words next value)
    (looseness : Nat) :
    Complete inner (.binary looseness) words next value := by
  induction looseness with
  | zero => exact complete_ofOperand complete
  | succ looseness ih => exact complete_ofTighter ih

theorem gives_expression {line : Bool}
    (complete : Complete inner (.binary BinaryOp.loosest) words next value)
    (begins : ∀ behind, (Phrase.binary BinaryOp.loosest).begins (leading behind words) = true)
    (ends : continuesChain next = false) (noOp : BinaryOp.ofKind? next = none) :
    Gives (expression inner line) Expr.shape words next value := by
  intro rest seen
  refine delivers_expression ?_ ?_
  · intro isIf
    have opens := begins (leading .endOfInput rest)
    simp [isIf, Phrase.begins, beginsPrimary] at opens
  · refine (complete ends ?_).gives (fun found rest seen => ?_) rest seen
    · simp [noOp]
    · exact delivers_binaryFrom_stop (by simp [seen, noOp])

/-- A chain of members, calls and indexes is an expression before any word that does not
continue it. -/
theorem gives_expression_indexed {line : Bool} {levels : Nat}
    (complete : Complete inner .indexed words next value)
    (derives : Derives levels .indexed words next value) (ends : continuesChain next = false)
    (noOp : BinaryOp.ofKind? next = none) :
    Gives (expression inner line) Expr.shape words next value := by
  have signed : Derives levels (.prefixed .minus) words next value := .ofIndexed derives
  have operand : Complete inner (.prefixed .not) words next value :=
    complete_ofSigned (complete_ofIndexed complete (derives.begins rfl)) (signed.begins rfl)
  refine gives_expression (complete_binary operand _) (fun behind => ?_) ends noOp
  have opens := derives.begins rfl behind
  simp only [Phrase.begins] at opens ⊢
  simp [opens]

end Lifts

/-! ## Lists -/

/-- A list whose front is still to be taken is read from its first word on. -/
theorem gives_list {part : Part} {bracket : Bracket} {list : List (part.Tree Unit) × Bool}
    (complete : Complete inner (.items part bracket) words next list) :
    Gives (listed bracket (part.parser inner))
      (fun found => (found.items.map part.shape, found.divided)) words next list := by
  intro rest seen
  rw [listed]
  exact complete [] words [] false rfl .nil rest seen

/-- The items of a list whose front is still to be taken. -/
theorem gives_items {part : Part} {bracket : Bracket} {list : List (part.Tree Unit) × Bool}
    (complete : Complete inner (.items part bracket) words next list) :
    Gives (listed bracket (part.parser inner)) (fun found => found.items.map part.shape) words next
      list.1 :=
  fun rest seen => (gives_list complete rest seen).weaken fun _ same => congrArg Prod.fst same

/-- If some of the line breaks before a word are cut off, the others still stand before it. -/
theorem Breaks.cut {front others all words : List Lexeme} (same : all ++ words = front ++ others)
    (breaks : Breaks front) (filled : leading .endOfInput words ≠ .newline) :
    ∃ left, all = front ++ left ∧ others = left ++ words := by
  rcases List.append_eq_append_iff.mp same with ⟨extra, rfl, rfl⟩ | cut
  · cases extra with
    | nil => exact ⟨[], by simp, by simp⟩
    | cons first extra => exact absurd (breaks first (by simp)) filled
  · exact cut

/-- What a list begins with behind its line breaks: its end or an item. -/
theorem Derives.items_begin {levels : Nat} {part : Part} {bracket : Bracket}
    {list : (Phrase.items part bracket).Tree Unit}
    (derives : Derives levels (.items part bracket) words next list) :
    ∃ front others, words = front ++ others ∧ Breaks front ∧
      ((list.1 = [] ∧ ∃ closing, others = [closing] ∧ closing.kind = .symbol bracket.close) ∨
        (list.1 ≠ [] ∧ ∃ head back sep tail, others = head ++ (back ++ sep :: tail) ∧
          Breaks back ∧ (sep.kind = .symbol .comma ∨ sep.kind = .symbol bracket.close) ∧
          Begun (.item part) head (leading sep.kind back))) := by
  cases derives with
  | noItem before closes => exact ⟨_, _, rfl, before, .inl ⟨rfl, _, rfl, closes⟩⟩
  | lastItem before item after closes =>
    exact ⟨_, _, rfl, before,
      .inr ⟨by simp, _, _, _, [], rfl, after, .inr closes, item.begun⟩⟩
  | moreItems before item after isComma others =>
    exact ⟨_, _, rfl, before,
      .inr ⟨by simp, _, _, _, _, rfl, after, .inl isComma, item.begun⟩⟩

theorem closesValue_behind {back : List Lexeme} {sep : Lexeme} (bracket : Bracket)
    (after : Breaks back) (divides : sep.kind = .symbol .comma ∨ sep.kind = .symbol bracket.close) :
    closesValue (leading sep.kind back) = true := by
  cases back with
  | nil =>
    rcases divides with isComma | closes
    · simp [isComma, closesValue]
    · cases bracket <;> simp [closes, Bracket.close, closesValue]
  | cons first back => simp [after first (by simp), closesValue]

/-- An item begins neither with a line break nor with a closing bracket. -/
theorem begins_item {part : Part} {kind : Kind} (begins : (Phrase.item part).begins kind = true)
    (bracket : Bracket) :
    kind ≠ .newline ∧ kind ≠ .symbol bracket.close ∧ kind ≠ .symbol .colon := by
  refine ⟨?_, ?_, ?_⟩ <;> rintro rfl <;> cases part <;> try cases bracket
  all_goals simp [Phrase.begins, beginsPrimary, Bracket.close] at begins

section Brackets

variable {levels : Nat} {opening : Lexeme} {divided : Bool}

theorem complete_dictionary {entries : List (Entry Unit)} (opens : opening.kind = .symbol .lbracket)
    (list : Derives levels (.items .entry .square) words next (entries, divided))
    (filled : entries ≠ [])
    (complete : Complete inner (.items .entry .square) words next (entries, divided)) :
    Gives (primary inner) Expr.shape (opening :: words) next (.dictionary entries ()) := by
  intro rest seen
  have delivers := fun front others same breaks =>
    complete front others [] false same breaks rest seen
  cases list with
  | noItem before closes => exact absurd rfl filled
  | lastItem before item after closes =>
    cases item with
    | entryItem isKey isColon value =>
      exact delivers_dictionary opens before isKey isColon
        ((delivers _ _ rfl before).weaken fun _ same => (Prod.mk.inj same).1)
  | moreItems before item after isComma others =>
    cases item with
    | entryItem isKey isColon value =>
      exact delivers_dictionary opens before isKey isColon
        ((delivers _ _ rfl before).weaken fun _ same => (Prod.mk.inj same).1)

theorem complete_array {values : List (Expr Unit)} (opens : opening.kind = .symbol .lbracket)
    (list : Derives levels (.items .expression .square) words next (values, divided))
    (complete : Complete inner (.items .expression .square) words next (values, divided)) :
    Gives (primary inner) Expr.shape (opening :: words) next (.array values ()) := by
  intro rest seen
  obtain ⟨front, others, rfl, before, begins⟩ := list.items_begin
  have delivers := (complete front others [] false rfl before rest seen).weaken
    fun _ same => (Prod.mk.inj same).1
  rcases begins with ⟨-, closing, rfl, closes⟩ |
    ⟨-, head, back, sep, tail, rfl, after, divides, begun⟩
  · exact delivers_array opens before (by simp [closes]) (by simp [closes, Bracket.close])
      (by simp [closes]) delivers
  · obtain ⟨first, more, rfl, begins, second⟩ := begun rfl
    obtain ⟨noBreak, -, noColon⟩ := begins_item begins .square
    refine delivers_array opens before (by simpa using noBreak) (by simpa using noColon) ?_ delivers
    intro isName
    have closed := closesValue_behind _ after divides
    have notColon : leading sep.kind back ≠ .symbol .colon := by
      intro isColon
      simp [isColon, closesValue] at closed
    simpa using second rfl (by simpa using isName) notColon

end Brackets

section Items

variable {part : Part} {bracket : Bracket} {front back head : List Lexeme} {value : part.Tree Unit}

theorem complete_noItem {closing : Lexeme} (before : Breaks front)
    (closes : closing.kind = .symbol bracket.close) :
    Complete inner (.items part bracket) (front ++ [closing]) next ([], false) := by
  intro cutFront others items divided same breaks rest seen
  obtain ⟨left, rfl, rfl⟩ := Breaks.cut same breaks (by simp [closes])
  refine (delivers_noItem (Breaks.right before) closes).weaken ?_
  rintro list ⟨rfl, rfl⟩
  simp

theorem complete_lastItem {closing : Lexeme} (before : Breaks front)
    (begins : ∀ behind, (Phrase.item part).begins (leading behind head) = true)
    (item : Complete inner (.item part) head (leading closing.kind back) value)
    (after : Breaks back) (closes : closing.kind = .symbol bracket.close) :
    Complete inner (.items part bracket) (front ++ (head ++ (back ++ [closing]))) next
      ([value], false) := by
  intro cutFront others items divided same breaks rest seen
  obtain ⟨noBreak, noClose, -⟩ := begins_item (begins (leading closing.kind back)) bracket
  obtain ⟨left, rfl, rfl⟩ := Breaks.cut same breaks (by simpa using noBreak)
  have delivers := item (closesValue_behind _ after (.inr closes)) (back ++ closing :: rest)
    (by simp)
  refine (delivers_lastItem (Breaks.right before) noClose noBreak delivers after closes).weaken ?_
  rintro list ⟨⟨found, same, rfl⟩, rfl⟩
  simp [same]

theorem complete_moreItems {comma : Lexeme} {more : List Lexeme} {values : List (part.Tree Unit)}
    {divided : Bool} (before : Breaks front)
    (begins : ∀ behind, (Phrase.item part).begins (leading behind head) = true)
    (item : Complete inner (.item part) head (leading comma.kind back) value) (after : Breaks back)
    (isComma : comma.kind = .symbol .comma)
    (list : Complete inner (.items part bracket) more next (values, divided)) :
    Complete inner (.items part bracket) (front ++ (head ++ (back ++ comma :: more))) next
      (value :: values, true) := by
  intro cutFront others items isDivided same breaks rest seen
  obtain ⟨noBreak, noClose, -⟩ := begins_item (begins (leading comma.kind back)) bracket
  obtain ⟨left, rfl, rfl⟩ := Breaks.cut same breaks (by simpa using noBreak)
  refine delivers_moreItems (Breaks.right before) noClose noBreak
    (item (closesValue_behind bracket after (.inl isComma)) _ (by simp)) after isComma ?_
  rintro found rfl
  refine (list [] more (items ++ [found]) true rfl .nil rest seen).weaken ?_
  intro result same
  simpa using same

end Items

/-! ## Every phrase -/

/-- What the grammar derives within a number of levels, the parser with that number of levels
reads. -/
theorem Derives.complete {levels : Nat} {phrase : Phrase} {tree : phrase.Tree Unit} (limit : Limit)
    (derives : Derives levels phrase words next tree) :
    Complete (Grammar.nested limit levels) phrase words next tree := by
  induction derives with
  | nested expression complete => exact complete
  | nestedLines lines complete =>
    have gives := complete []
    rw [← block_eq_linesFrom] at gives
    exact gives
  | number isNumber => exact fun _ rest _ => delivers_number isNumber
  | string isString => exact fun _ rest _ => delivers_string isString
  | boolean isBoolean => exact fun _ rest _ => delivers_boolean isBoolean
  | nil isNil => exact fun _ rest _ => delivers_nil isNil
  | name isName => exact complete_name isName
  | path joined several =>
    intro noColons rest seen
    refine (delivers_path joined (by rw [seen]; exact noColons)).weaken ?_
    exact fun found shapes => shapes.2 several
  | grouping opens list complete =>
    intro _ rest seen
    refine (delivers_parenthesized opens ?_).weaken fun found shapes => shapes.1 _ rfl rfl
    exact (gives_list complete rest seen).weaken fun _ same => Prod.mk.inj same
  | tuple opens list isTuple complete =>
    intro _ rest seen
    refine (delivers_parenthesized opens ?_).weaken fun found shapes => shapes.2 isTuple
    exact (gives_list complete rest seen).weaken fun _ same => Prod.mk.inj same
  | emptyDictionary opens before isColon after closes =>
    exact fun _ rest _ => delivers_emptyDictionary opens before isColon after closes
  | dictionary opens list filled complete =>
    exact fun _ => complete_dictionary opens list filled complete
  | array opens list complete => exact fun _ => complete_array opens list complete
  | closureLine opens joined isArrow body closes complete =>
    intro _ rest _
    refine delivers_closureLine opens joined isArrow ?_ ?_ closes
    · intro isDo
      have begins := body.begins rfl (.keyword .kwEnd)
      simp [← closes, isDo, Phrase.begins, beginsPrimary] at begins
    · exact complete (by simp [closes, Grammar.closes, closesValue]) _ rfl
  | closureBlock opens joined isArrow isDo isBreak body closes complete =>
    intro _ rest _
    exact delivers_closureBlock opens joined isArrow isDo isBreak (complete _ rfl) closes
  | ofPrimary primary complete => exact complete_ofPrimary complete
  | call target opens list completeTarget completeList =>
    intro noColons more rest post seen goesOn
    rw [List.append_assoc]
    refine completeTarget (by simp [opens]) _ rest post (by simp) ?_
    rintro callee rfl
    refine delivers_membersFrom_call opens ?_ goesOn
    exact gives_items completeList _ (by simpa using seen)
  | access target isDot isName completeTarget =>
    intro noColons more rest post seen goesOn
    rw [List.append_assoc]
    refine completeTarget (by simp [isDot]) _ rest post (by simp) ?_
    rintro owner rfl
    exact delivers_membersFrom_access isDot isName goesOn
  | ofMembers members complete => exact complete_ofMembers complete
  | index target opens place closes completeTarget completePlace =>
    intro _ _ _ more rest post seen goesOn
    rw [List.append_assoc]
    refine completeTarget (by simp [opens]) (by simp [opens]) (by simp [opens]) _ rest post
      (by simp) ?_
    rintro owner rfl
    simp only [List.cons_append, List.append_assoc, List.nil_append]
    refine delivers_indexedFrom_index opens ?_ closes goesOn
    exact completePlace (by simp [closes, Grammar.closes, closesValue]) _ rfl
  | ofIndexed indexed complete => exact complete_ofIndexed complete (indexed.begins rfl)
  | ofSigned signed complete => exact complete_ofSigned complete (signed.begins rfl)
  | unary isOp operand complete =>
    intro ends spans rest seen
    refine delivers_prefixedFrom_sign isOp fun span => ?_
    refine (complete ends (spans ++ [span]) rest seen).weaken ?_
    rintro found same
    rw [same, List.length_append, List.length_singleton, signed_succ]
  | ofOperand operand complete => exact complete_ofOperand complete
  | ofTighter tighter complete => exact complete_ofTighter complete
  | binary first isOp rank second completeFirst completeSecond =>
    intro ends ranks more rest post seen goesOn
    rw [List.append_assoc]
    refine completeFirst ?_ ?_ _ rest post (by simp) ?_
    · exact not_continues_of_binary isOp
    · intro op same
      rw [isOp] at same
      exact Nat.le_of_eq (by rw [← Option.some.inj same, rank])
    · rintro left rfl
      refine delivers_binaryFrom_operator isOp rank ?_ goesOn
      refine (completeSecond ends fun op isOp => ?_).gives (fun found rest seen => ?_) _
        (by simpa using seen)
      · exact Nat.le_of_succ_le (ranks op isOp)
      · refine delivers_binaryFrom_stop fun op isOp => ?_
        rw [seen] at isOp
        exact Nat.ne_of_gt (ranks op isOp)
  | ofBinary operands complete =>
    intro closed
    obtain ⟨ends, noOp, -⟩ := not_continues_of_closesValue (closesValue_of_closes closed)
    exact gives_expression complete (operands.begins rfl) ends noOp
  | ifLine opens test isThen thenDo noElse completeTest completeThen =>
    intro closed rest seen
    refine delivers_conditional opens
      (completeTest (by simp [isThen, Grammar.closes, closesValue]) _ rfl) ?_
    rintro start condition rfl
    exact delivers_ifLine isThen (completeThen closed rest seen) (by rw [seen]; exact noElse)
  | ifLineElse opens test isThen thenDo isElse elseDo completeTest completeThen completeElse =>
    intro closed rest seen
    refine delivers_conditional opens
      (completeTest (by simp [isThen, Grammar.closes, closesValue]) _ rfl) ?_
    rintro start condition rfl
    exact delivers_ifLineElse isThen (completeThen (by rw [isElse, closes_else]) _ rfl) isElse
      (completeElse closed rest seen)
  | ifBlock opens test isBreak thenDo closes completeTest completeThen =>
    intro closed rest seen
    refine delivers_conditional opens
      (completeTest (by simp [isBreak, Grammar.closes, closesValue]) _ rfl) ?_
    rintro start condition rfl
    exact delivers_ifBlock isBreak (completeThen _ rfl) closes
  | ifBlockElse opens test isBreak thenDo isElse isElseBreak elseDo closes completeTest completeThen
      completeElse =>
    intro closed rest seen
    refine delivers_conditional opens
      (completeTest (by simp [isBreak, Grammar.closes, closesValue]) _ rfl) ?_
    rintro start condition rfl
    exact delivers_ifBlockElse isBreak (completeThen _ rfl) isElse isElseBreak
      (completeElse _ rfl)
  | breakLoop isBreak => exact fun _ rest _ => delivers_breakLoop isBreak
  | continueLoop isContinue => exact fun _ rest _ => delivers_continueLoop isContinue
  | returnNothing isReturn stops =>
    exact fun _ rest seen => delivers_returnNothing isReturn (by rw [seen]; exact stops)
  | returnValue isReturn value complete =>
    intro closed rest seen
    refine delivers_returnValue isReturn ?_ (complete (closesValue_of_closes closed) rest seen)
    exact (begins_value (value.begins rfl _)).1
  | assign first isTarget isOp second completeFirst completeSecond =>
    intro closed rest seen
    obtain ⟨ends, noOp⟩ := not_continues_of_assign isOp
    obtain ⟨-, noBreak, noContinue, noReturn⟩ :=
      begins_value (begins_nested_of_indexed (first.begins rfl _))
    refine delivers_shortStatement ?_ ?_ ?_ (delivers_assign ?_ isTarget isOp ?_)
    · simpa using noBreak
    · simpa using noContinue
    · simpa using noReturn
    · exact gives_expression_indexed completeFirst first ends noOp _ rfl
    · exact completeSecond (closesValue_of_closes closed) rest seen
  | assignNames joined several isOp second completeSecond =>
    intro closed rest seen
    obtain ⟨first, others, rfl, isName⟩ := joined.begins
    refine delivers_shortStatement ?_ ?_ ?_ (delivers_assignNames joined several ?_ isOp ?_)
    · simp [isName]
    · simp [isName]
    · simp [isName]
    · cases second with
      | nested value =>
        have derives : Derives 0 .indexed [first] (.symbol .comma) (.variable first.text ()) :=
          .ofMembers (.ofPrimary (.name isName))
        refine gives_expression_indexed (complete_ofMembers (complete_ofPrimary
          (complete_name isName))) derives rfl rfl _ ?_
        simpa using joined.second several _
    · exact completeSecond (closesValue_of_closes closed) rest seen
  | ofExpression value complete =>
    intro closed rest seen
    obtain ⟨-, noBreak, noContinue, noReturn⟩ := begins_value (value.begins rfl _)
    obtain ⟨-, -, noAssign⟩ := not_continues_of_closesValue (closesValue_of_closes closed)
    refine delivers_shortStatement noBreak noContinue noReturn ?_
    refine delivers_expressionStatement (complete closed rest seen) ?_
      (by rw [seen]; exact noAssign)
    rintro rfl isComma
    rw [seen] at isComma
    simp [isComma, Grammar.closes] at closed
  | use opens joined =>
    rintro rfl rest seen
    exact delivers_use opens joined (by simp [seen]) (by simp [seen])
  | classBare opens isName isBreak body closes complete =>
    exact fun _ rest _ => delivers_classBare opens isName isBreak (complete _ rfl)
  | classFields opens isName isBracket params isBreak body closes completeParams completeBody =>
    intro _ rest _
    refine delivers_classFields opens isName isBracket ?_ isBreak (completeBody _ rfl)
    exact gives_items completeParams _ rfl
  | methodValue opens named isBracket params isEquals value completeParams completeValue =>
    rintro rfl rest seen
    refine delivers_methodValue opens named isBracket ?_ isEquals (completeValue rfl rest seen)
    exact gives_items completeParams _ rfl
  | methodBlock opens named isBracket params isBreak body closes completeParams completeBody =>
    intro _ rest _
    refine delivers_methodBlock opens named isBracket ?_ isBreak (completeBody _ rfl)
    exact gives_items completeParams _ rfl
  | forLoop opens joined isIn elements isBreak body closes completeElements completeBody =>
    intro _ rest _
    exact delivers_forLoop opens joined isIn
      (completeElements (by simp [isBreak, Grammar.closes, closesValue]) _ rfl) isBreak
      (completeBody _ rfl)
  | whileLoop opens test isBreak body closes completeTest completeBody =>
    intro _ rest _
    exact delivers_whileLoop opens
      (completeTest (by simp [isBreak, Grammar.closes, closesValue]) _ rfl) isBreak
      (completeBody _ rfl)
  | ofShort short complete =>
    rintro rfl rest seen
    exact delivers_statement_short (short.begins rfl _) (complete rfl rest seen)
  | noLine ends =>
    intro before rest seen
    refine (delivers_noLine (by rw [seen]; exact ends)).weaken ?_
    rintro _ rfl
    simp
  | emptyLine isBreak lines complete =>
    exact fun before rest seen => delivers_emptyLine isBreak (complete before rest seen)
  | line statement isBreak lines completeStatement completeLines =>
    intro before rest seen
    refine delivers_line (statement.begins rfl _) (completeStatement isBreak _ rfl) isBreak ?_
    rintro found rfl
    refine (completeLines (before ++ [found]) rest seen).weaken ?_
    intro result same
    simpa using same
  | expressionItem value complete => exact complete
  | entryItem isKey isColon value complete =>
    exact fun closed rest seen => delivers_entry isKey isColon (complete closed rest seen)
  | plainItem isName =>
    intro closed rest seen
    refine delivers_plainParameter isName ?_
    rw [seen]
    rintro rfl
    simp [closesValue] at closed
  | defaultedItem isName isEquals value complete =>
    exact fun closed rest seen =>
      delivers_defaultedParameter isName isEquals (complete closed rest seen)
  | noItem before closes => exact complete_noItem before closes
  | lastItem before item after closes complete =>
    exact complete_lastItem before (item.begins rfl) complete after closes
  | moreItems before item after isComma others completeItem completeOthers =>
    exact complete_moreItems before (item.begins rfl) completeItem after isComma completeOthers

end Parlance.Grammar
