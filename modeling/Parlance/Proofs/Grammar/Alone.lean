import Parlance.Proofs.Grammar.Viability
import Parlance.Proofs.Syntax.Node

/-!
Contract: the words of a node form a line of their own.

Owns: what it means that words form a node (`Forms`), that a phrase which does not fill a line may
fill one, that operands of every rank are full expressions, and that the words of a statement or an
expression, with a line break behind them, are a program of one line within the levels that the
node had around it.
-/

namespace Parlance.Grammar

open Lexeme

variable {levels : Nat} {words : List Lexeme} {next : Kind}

/-! ## Filling a line -/

/-- The phrase, where it may fill a line, is one that does. -/
def OnLine (levels : Nat) :
    (phrase : Phrase) → List Lexeme → Kind → phrase.Tree Unit → Prop
  | .short _, words, next, stmt => Derives levels (.short true) words next stmt
  | .expression _, words, next, value => Derives levels (.expression true) words next value
  | .nested _, words, next, value => Derives levels (.nested true) words next value
  | _, _, _, _ => True

theorem Derives.onLine {phrase : Phrase} {tree : phrase.Tree Unit}
    (derives : Derives levels phrase words next tree) :
    OnLine levels phrase words next tree := by
  induction derives with
  | nested inner ih => exact .nested ih
  | ofBinary inner => exact .ofBinary inner
  | ifLine opens test isThen inner noElse _ ihInner =>
    exact .ifLine opens test isThen ihInner noElse
  | ifLineElse opens test isThen inner isElse innerElse _ ihInner ihElse =>
    exact .ifLineElse opens test isThen ihInner isElse ihElse
  | ifBlock opens test isBreak inner closes => exact .ifBlock opens test isBreak inner closes
  | ifBlockElse opens test isBreak inner isElse isElseBreak innerElse closes =>
    exact .ifBlockElse opens test isBreak inner isElse isElseBreak innerElse closes
  | breakLoop isBreak => exact .breakLoop isBreak
  | continueLoop isContinue => exact .continueLoop isContinue
  | returnNothing isReturn stops => exact .returnNothing isReturn stops
  | returnValue isReturn inner => exact .returnValue isReturn inner
  | assign first isTarget isOp second => exact .assign first isTarget isOp second
  | assignNames joined several isOp inner => exact .assignNames joined several isOp inner
  | ofExpression inner ih => exact .ofExpression ih
  | _ => exact trivial

/-! ## Operands as full expressions -/

section Operands

variable {value : Expr Unit}

theorem Derives.expression_of_binary {looseness : Nat}
    (derives : Derives levels (.binary looseness) words next value)
    (atMost : looseness ≤ BinaryOp.loosest) :
    Derives levels (.expression true) words next value := by
  obtain ⟨ranks, loosest⟩ := Nat.exists_eq_add_of_le atMost
  have looser : Derives levels (.binary (looseness + ranks)) words next value := by
    clear loosest
    induction ranks with
    | zero => exact derives
    | succ ranks ih => exact .ofTighter ih
  exact .ofBinary (loosest ▸ looser)

theorem Derives.expression_of_prefixed {op : UnaryOp}
    (derives : Derives levels (.prefixed op) words next value) :
    Derives levels (.expression true) words next value := by
  have operand : Derives levels (.prefixed .not) words next value := by
    cases op with
    | not => exact derives
    | minus => exact .ofSigned derives
  exact Derives.expression_of_binary (.ofOperand operand) (Nat.zero_le _)

theorem Derives.expression_of_indexed (derives : Derives levels .indexed words next value) :
    Derives levels (.expression true) words next value :=
  Derives.expression_of_prefixed (.ofIndexed derives)

end Operands

/-! ## The last word -/

/-- The last word of a row is no line break. -/
def EndsWord (words : List Lexeme) : Prop :=
  ∃ front last, words = front ++ [last] ∧ last.kind ≠ .newline

namespace EndsWord

theorem one {word : Lexeme} {kind : Kind} (isKind : word.kind = kind) (notBreak : kind ≠ .newline) :
    EndsWord [word] :=
  ⟨[], word, rfl, isKind ▸ notBreak⟩

theorem append (ends : EndsWord words) (front : List Lexeme) : EndsWord (front ++ words) := by
  obtain ⟨init, last, rfl, notBreak⟩ := ends
  exact ⟨front ++ init, last, (List.append_assoc _ _ _).symm, notBreak⟩

theorem cons (ends : EndsWord words) (word : Lexeme) : EndsWord (word :: words) :=
  ends.append [word]

end EndsWord

theorem Joined.endsWord {joints : List Kind} {names : List String}
    (joined : Joined joints words names) :
    EndsWord words := by
  induction joined with
  | one isName => exact .one isName (by simp)
  | more isName isJoint rest ih => exact (ih.cons _).cons _

theorem Derives.endsWord {phrase : Phrase} {tree : phrase.Tree Unit}
    (derives : Derives levels phrase words next tree) (notLines : phrase.isLines = false) :
    EndsWord words := by
  induction derives with
  | nestedLines | noLine | emptyLine | line => contradiction
  | number isWord | string isWord | boolean isWord | nil isWord | name isWord
  | breakLoop isWord | continueLoop isWord | returnNothing isWord | plainItem isWord =>
    exact .one isWord (by simp)
  | path joined several => exact joined.endsWord
  | use opens joined => exact joined.endsWord.cons _
  -- Phrases that end with the part they end in.
  | nested inner ih | ofPrimary inner ih
  | ofMembers inner ih | ofIndexed inner ih
  | ofSigned inner ih | ofOperand inner ih
  | ofTighter inner ih | ofBinary inner ih
  | ofExpression inner ih | ofShort inner ih
  | expressionItem inner ih => exact ih rfl
  | grouping opens list ih | tuple opens list isTuple ih
  | dictionary opens list filled ih | array opens list ih
  | unary isOp inner ih | returnValue isReturn inner ih =>
    exact (ih rfl).cons _
  | entryItem isKey isColon inner ih
  | defaultedItem isName isEquals inner ih =>
    exact ((ih rfl).cons _).cons _
  | call target opens inner _ ih
  | binary first isOp rank second _ ih
  | assign first isTarget isOp second _ ih =>
    exact ((ih rfl).cons _).append _
  | assignNames joined several isOp inner ih =>
    exact ((ih rfl).cons _).append _
  | ifLine opens test isThen inner noElse _ ih =>
    exact (((ih rfl).cons _).append _).cons _
  | ifLineElse opens test isThen inner isElse innerElse _ _ ih =>
    exact (((((ih rfl).cons _).append _).cons _).append _).cons _
  | methodValue opens named isBracket params isEquals inner _ ih =>
    exact (((((ih rfl).cons _).append _).cons _).append _).cons _
  | moreItems before inner after isComma others _ ih =>
    exact ((((ih rfl).cons _).append _).append _).append _
  -- Phrases that end with a word of a given kind.
  | access target isDot isName => exact ((EndsWord.one isName (by simp)).cons _).append _
  | noItem before closes => exact (EndsWord.one closes (by simp)).append _
  | lastItem before inner after closes =>
    exact (((EndsWord.one closes (by simp)).append _).append _).append _
  | emptyDictionary _ _ _ _ closes | closureLine _ _ _ _ closes | closureBlock _ _ _ _ _ _ closes
  | index _ _ _ closes | ifBlock _ _ _ _ closes | ifBlockElse _ _ _ _ _ _ _ closes
  | classBare _ _ _ _ closes | classFields _ _ _ _ _ _ closes | methodBlock _ _ _ _ _ _ closes
  | forLoop _ _ _ _ _ _ closes | whileLoop _ _ _ _ closes =>
    have last := EndsWord.one closes (by simp)
    simp only [← List.append_assoc, ← List.cons_append]
    exact last.append _

/-! ## Words of a node -/

/-- The words form the node. A statement has a level around it, and an expression two: that of the
expression itself and that of the line it would stand on. -/
def Forms (depth : Nat) (words : List Lexeme) : Node Span → Prop
  | .stmt stmt => ∃ levels, levels + 1 ≤ depth ∧
      Derives levels .statement words .newline stmt.shape
  | .expr value => ∃ levels, levels + 2 ≤ depth ∧
      Derives levels (.expression true) words .newline value.shape
  | .param param => ∃ levels, Derives levels (.item .param) words .newline param.shape
  | .entry entry => ∃ levels, Derives levels (.item .entry) words .newline entry.shape
  | .names names _ =>
    (Joined [.symbol .comma] words names ∧ 2 ≤ names.length) ∨
      ∃ levels value, Derives levels .indexed words .newline value ∧
        value.toTarget? = some (.names names ())

variable {depth : Nat} {node : Node Span}

/-- A phrase that is no row begins with a word that is no line break. -/
theorem Derives.beginsWord {phrase : Phrase} {tree : phrase.Tree Unit}
    (derives : Derives levels phrase words next tree) (notRow : phrase.isRow = false) :
    ∃ first rest, words = first :: rest ∧ first.kind ≠ .newline := by
  obtain ⟨first, rest, same, begins, -⟩ := derives.begun notRow
  refine ⟨first, rest, same, ?_⟩
  intro isBreak
  rw [isBreak] at begins
  cases phrase with
  | prefixed op => cases op <;> contradiction
  | item part => cases part <;> contradiction
  | lines block | nestedLines block | items part bracket => contradiction
  | _ => contradiction

/-- The words of a node neither begin nor end with a line break. -/
theorem Forms.ends (forms : Forms depth words node) :
    (∃ first rest, words = first :: rest ∧ first.kind ≠ .newline) ∧ EndsWord words := by
  cases node with
  | stmt stmt =>
    obtain ⟨levels, -, derives⟩ := forms
    exact ⟨derives.beginsWord rfl, derives.endsWord rfl⟩
  | expr value =>
    obtain ⟨levels, -, derives⟩ := forms
    exact ⟨derives.beginsWord rfl, derives.endsWord rfl⟩
  | param param =>
    obtain ⟨levels, derives⟩ := forms
    exact ⟨derives.beginsWord rfl, derives.endsWord rfl⟩
  | entry entry =>
    obtain ⟨levels, derives⟩ := forms
    exact ⟨derives.beginsWord rfl, derives.endsWord rfl⟩
  | names names mark =>
    rcases forms with ⟨joined, -⟩ | ⟨levels, value, derives, -⟩
    · obtain ⟨first, rest, same, isName⟩ := joined.begins
      exact ⟨⟨first, rest, same, by simp [isName]⟩, joined.endsWord⟩
    · exact ⟨derives.beginsWord rfl, derives.endsWord rfl⟩

theorem Derives.oneLine {stmt : Stmt Unit} {lineEnd : Lexeme}
    (derives : Derives levels .statement words .newline stmt) (atMost : levels + 1 ≤ depth)
    (isBreak : lineEnd.kind = .newline) :
    Derives depth (.nestedLines .program) (words ++ [lineEnd]) .endOfInput [stmt] := by
  have line : Derives levels (.lines .program) (words ++ [lineEnd]) .endOfInput [stmt] :=
    .line (isBreak ▸ derives) isBreak (.noLine rfl)
  exact (Derives.nestedLines line).mono atMost

/-- The words of a statement or an expression and a line break are a program of one line. -/
theorem Forms.oneLine {stmt : Stmt Unit} {lineEnd : Lexeme} (forms : Forms depth words node)
    (isAlone : node.alone? = some stmt) (isBreak : lineEnd.kind = .newline) :
    Derives depth (.nestedLines .program) (words ++ [lineEnd]) .endOfInput [stmt] := by
  cases node with
  | stmt inner =>
    obtain ⟨levels, atMost, derives⟩ := forms
    obtain rfl := Option.some.inj isAlone
    exact derives.oneLine atMost isBreak
  | expr value =>
    obtain ⟨levels, atMost, derives⟩ := forms
    obtain rfl := Option.some.inj isAlone
    have statement : Derives (levels + 1) .statement words .newline (.expression value.shape ()) :=
      .ofShort (.ofExpression (.nested derives))
    exact statement.oneLine atMost isBreak
  | param | entry | names => contradiction

end Parlance.Grammar
