import Parlance.Proofs.Grammar.Lexeme
import Parlance.Grammar.Short

/-!
Contract: the grammar of the language, as rules that say which rows of words form which trees.

A rule relates a row of words to the tree that it forms. It says nothing about how the row is read:
operators group to the left because their rules recur on the left, and lists, chains and blocks are
rows of any length. Two rules depend on the word behind the row: a `return` without a value stands
only before certain words, and a one-line `if` has no `else` only where no `else` follows, so an
`else` belongs to the innermost `if` that is open.

Owns: the kinds of phrase and their rules (`Derives`), and which rows of words are programs
(`Accepts`). Does not own: the parsers. Trees are shapes: their marks carry nothing. Full
expressions and blocks count one level of nesting each; no other phrase does.
-/

namespace Parlance.Grammar

open Lexeme

inductive Part where
  | expression
  | entry
  | param
deriving DecidableEq, Repr

def Part.Tree (σ : Type) : Part → Type
  | .expression => Expr σ
  | .entry => Entry σ
  | .param => Param σ

/-- The kinds of phrase. A phrase that may fill a `line` is marked with whether it does. -/
inductive Phrase where
  /-- The lines of a block, without the word that ends it. -/
  | lines (block : Block)
  /-- The lines of a block, one level deeper. -/
  | nestedLines (block : Block)
  | statement
  | short (line : Bool)
  | expression (line : Bool)
  /-- A full expression, one level deeper. -/
  | nested (line : Bool)
  /-- Binary operators up to the given looseness. -/
  | binary (looseness : Nat)
  | prefixed (op : UnaryOp)
  | indexed
  | members
  | primary
  | item (part : Part)
  /-- A list from behind its opening bracket through its closing one. -/
  | items (part : Part) (bracket : Bracket)
deriving DecidableEq, Repr

/-- The trees that phrases form. A list forms its items, and tells whether a comma divides it. -/
def Phrase.Tree (σ : Type) : Phrase → Type
  | .lines _ => List (Stmt σ)
  | .nestedLines _ => List (Stmt σ)
  | .statement => Stmt σ
  | .short _ => Stmt σ
  | .expression _ => Expr σ
  | .nested _ => Expr σ
  | .binary _ => Expr σ
  | .prefixed _ => Expr σ
  | .indexed => Expr σ
  | .members => Expr σ
  | .primary => Expr σ
  | .item part => part.Tree σ
  | .items part _ => List (part.Tree σ) × Bool

inductive Joined (joints : List Kind) : List Lexeme → List String → Prop where
  | one {name : Lexeme} (isName : name.kind = .name) :
      Joined joints [name] [name.text]
  | more {name joint : Lexeme} {words : List Lexeme} {names : List String}
      (isName : name.kind = .name) (isJoint : joints.contains joint.kind = true)
      (rest : Joined joints words names) :
      Joined joints (name :: joint :: words) (name.text :: names)

/-- The name of a method, behind `self` and a double colon if the method is shared. -/
inductive MethodName : Bool → List Lexeme → String → Prop where
  | own {name : Lexeme} (isName : name.kind = .name) :
      MethodName false [name] name.text
  | shared {owner colons name : Lexeme} (isOwner : owner.kind = .name)
      (isSelf : owner.text = "self") (isColons : colons.kind = .symbol .doubleColon)
      (isName : name.kind = .name) :
      MethodName true [owner, colons, name] name.text

/-- `Derives levels phrase words next tree`: before a word of the kind `next`, the words form the
tree as a phrase of the given kind, with at most the given number of levels nested in it. -/
inductive Derives : Nat → (phrase : Phrase) → List Lexeme → Kind → phrase.Tree Unit → Prop where
  -- Levels.
  | nested {levels : Nat} {line : Bool} {words : List Lexeme} {next : Kind} {value : Expr Unit}
      (inner : Derives levels (.expression line) words next value) :
      Derives (levels + 1) (.nested line) words next value
  | nestedLines {levels : Nat} {block : Block} {words : List Lexeme} {next : Kind}
      {body : List (Stmt Unit)} (inner : Derives levels (.lines block) words next body) :
      Derives (levels + 1) (.nestedLines block) words next body
  -- Primaries.
  | number {levels : Nat} {word : Lexeme} {next : Kind} (isNumber : word.kind = .number) :
      Derives levels .primary [word] next (.number word.text ())
  | string {levels : Nat} {word : Lexeme} {next : Kind} (isString : word.kind = .string) :
      Derives levels .primary [word] next (.string word.text word.quote ())
  | boolean {levels : Nat} {word : Lexeme} {next : Kind} (isBoolean : word.kind = .boolean) :
      Derives levels .primary [word] next (.boolean (word.text == "true") ())
  | nil {levels : Nat} {word : Lexeme} {next : Kind} (isNil : word.kind = .nil) :
      Derives levels .primary [word] next (.nil ())
  | name {levels : Nat} {word : Lexeme} {next : Kind} (isName : word.kind = .name) :
      Derives levels .primary [word] next (.variable word.text ())
  | path {levels : Nat} {words : List Lexeme} {next : Kind} {segments : List String}
      (joined : Joined [.symbol .doubleColon] words segments) (several : 2 ≤ segments.length) :
      Derives levels .primary words next (.path segments ())
  | grouping {levels : Nat} {opening : Lexeme} {words : List Lexeme} {next : Kind}
      {value : Expr Unit} (opens : opening.kind = .symbol .lparen)
      (list : Derives levels (.items .expression .round) words next ([value], false)) :
      Derives levels .primary (opening :: words) next (.grouping value ())
  | tuple {levels : Nat} {opening : Lexeme} {words : List Lexeme} {next : Kind}
      {values : List (Expr Unit)} {divided : Bool} (opens : opening.kind = .symbol .lparen)
      (list : Derives levels (.items .expression .round) words next (values, divided))
      (isTuple : values = [] ∨ divided = true) :
      Derives levels .primary (opening :: words) next (.tuple values ())
  | emptyDictionary {levels : Nat} {opening colon closing : Lexeme} {front back : List Lexeme}
      {next : Kind} (opens : opening.kind = .symbol .lbracket) (before : Breaks front)
      (isColon : colon.kind = .symbol .colon) (after : Breaks back)
      (closes : closing.kind = .symbol .rbracket) :
      Derives levels .primary (opening :: (front ++ colon :: (back ++ [closing]))) next
        (.dictionary [] ())
  | dictionary {levels : Nat} {opening : Lexeme} {words : List Lexeme} {next : Kind}
      {entries : List (Entry Unit)} {divided : Bool} (opens : opening.kind = .symbol .lbracket)
      (list : Derives levels (.items .entry .square) words next (entries, divided))
      (filled : entries ≠ []) :
      Derives levels .primary (opening :: words) next (.dictionary entries ())
  | array {levels : Nat} {opening : Lexeme} {words : List Lexeme} {next : Kind}
      {values : List (Expr Unit)} {divided : Bool} (opens : opening.kind = .symbol .lbracket)
      (list : Derives levels (.items .expression .square) words next (values, divided)) :
      Derives levels .primary (opening :: words) next (.array values ())
  | closureLine {levels : Nat} {opening arrow closing : Lexeme} {head words : List Lexeme}
      {next : Kind} {params : List String} {body : Stmt Unit}
      (opens : opening.kind = .keyword .kwFn) (joined : Joined [.symbol .comma] head params)
      (isArrow : arrow.kind = .symbol .arrow)
      (inner : Derives levels (.short false) words closing.kind body)
      (closes : closing.kind = .keyword .kwEnd) :
      Derives levels .primary (opening :: (head ++ arrow :: (words ++ [closing]))) next
        (.closureLine params body ())
  | closureBlock {levels : Nat} {opening arrow start lineEnd closing : Lexeme}
      {head words : List Lexeme} {next : Kind} {params : List String} {body : List (Stmt Unit)}
      (opens : opening.kind = .keyword .kwFn) (joined : Joined [.symbol .comma] head params)
      (isArrow : arrow.kind = .symbol .arrow) (isDo : start.kind = .keyword .kwDo)
      (isBreak : lineEnd.kind = .newline)
      (inner : Derives levels (.nestedLines .closureBody) words closing.kind body)
      (closes : closing.kind = .keyword .kwEnd) :
      Derives levels .primary
        (opening :: (head ++ arrow :: start :: lineEnd :: (words ++ [closing]))) next
        (.closureBlock params body ())
  -- Members and calls, then indexes, then operators, from tight to loose.
  | ofPrimary {levels : Nat} {words : List Lexeme} {next : Kind} {value : Expr Unit}
      (inner : Derives levels .primary words next value) :
      Derives levels .members words next value
  | call {levels : Nat} {opening : Lexeme} {words list : List Lexeme} {next : Kind}
      {callee : Expr Unit} {args : List (Expr Unit)} {divided : Bool}
      (target : Derives levels .members words opening.kind callee)
      (opens : opening.kind = .symbol .lparen)
      (inner : Derives levels (.items .expression .round) list next (args, divided)) :
      Derives levels .members (words ++ opening :: list) next (.call callee args ())
  | access {levels : Nat} {dot member : Lexeme} {words : List Lexeme} {next : Kind}
      {owner : Expr Unit} (target : Derives levels .members words dot.kind owner)
      (isDot : dot.kind = .symbol .dot) (isName : member.kind = .name) :
      Derives levels .members (words ++ [dot, member]) next (.access owner member.text ())
  | ofMembers {levels : Nat} {words : List Lexeme} {next : Kind} {value : Expr Unit}
      (inner : Derives levels .members words next value) :
      Derives levels .indexed words next value
  | index {levels : Nat} {opening closing : Lexeme} {words place : List Lexeme} {next : Kind}
      {owner index : Expr Unit} (target : Derives levels .indexed words opening.kind owner)
      (opens : opening.kind = .symbol .lbracket)
      (inner : Derives levels (.nested false) place closing.kind index)
      (closes : closing.kind = .symbol .rbracket) :
      Derives levels .indexed (words ++ opening :: (place ++ [closing])) next
        (.index owner index ())
  | ofIndexed {levels : Nat} {words : List Lexeme} {next : Kind} {value : Expr Unit}
      (inner : Derives levels .indexed words next value) :
      Derives levels (.prefixed .minus) words next value
  | ofSigned {levels : Nat} {words : List Lexeme} {next : Kind} {value : Expr Unit}
      (inner : Derives levels (.prefixed .minus) words next value) :
      Derives levels (.prefixed .not) words next value
  | unary {levels : Nat} {op : UnaryOp} {word : Lexeme} {words : List Lexeme} {next : Kind}
      {value : Expr Unit} (isOp : word.kind = op.kind)
      (inner : Derives levels (.prefixed op) words next value) :
      Derives levels (.prefixed op) (word :: words) next (.unary op value ())
  | ofOperand {levels : Nat} {words : List Lexeme} {next : Kind} {value : Expr Unit}
      (inner : Derives levels (.prefixed .not) words next value) :
      Derives levels (.binary 0) words next value
  | ofTighter {levels looseness : Nat} {words : List Lexeme} {next : Kind} {value : Expr Unit}
      (inner : Derives levels (.binary looseness) words next value) :
      Derives levels (.binary (looseness + 1)) words next value
  | binary {levels looseness : Nat} {op : BinaryOp} {word : Lexeme} {front back : List Lexeme}
      {next : Kind} {left right : Expr Unit}
      (first : Derives levels (.binary (looseness + 1)) front word.kind left)
      (isOp : BinaryOp.ofKind? word.kind = some op) (rank : op.looseness = looseness + 1)
      (second : Derives levels (.binary looseness) back next right) :
      Derives levels (.binary (looseness + 1)) (front ++ word :: back) next
        (.binary left op right ())
  -- Full expressions.
  | ofBinary {levels : Nat} {line : Bool} {words : List Lexeme} {next : Kind} {value : Expr Unit}
      (inner : Derives levels (.binary BinaryOp.loosest) words next value) :
      Derives levels (.expression line) words next value
  | ifLine {levels : Nat} {line : Bool} {opening middle : Lexeme} {head words : List Lexeme}
      {next : Kind} {condition : Expr Unit} {thenDo : Stmt Unit}
      (opens : opening.kind = .keyword .kwIf)
      (test : Derives levels (.nested false) head middle.kind condition)
      (isThen : middle.kind = .keyword .kwThen)
      (inner : Derives levels (.short line) words next thenDo) (noElse : next ≠ .keyword .kwElse) :
      Derives levels (.expression line) (opening :: (head ++ middle :: words)) next
        (.ifLine condition thenDo ())
  | ifLineElse {levels : Nat} {line : Bool} {opening middle other : Lexeme}
      {head words elseWords : List Lexeme} {next : Kind} {condition : Expr Unit}
      {thenDo elseDo : Stmt Unit} (opens : opening.kind = .keyword .kwIf)
      (test : Derives levels (.nested false) head middle.kind condition)
      (isThen : middle.kind = .keyword .kwThen)
      (inner : Derives levels (.short line) words other.kind thenDo)
      (isElse : other.kind = .keyword .kwElse)
      (innerElse : Derives levels (.short line) elseWords next elseDo) :
      Derives levels (.expression line)
        (opening :: (head ++ middle :: (words ++ other :: elseWords))) next
        (.ifLineElse condition thenDo elseDo ())
  | ifBlock {levels : Nat} {line : Bool} {opening lineEnd closing : Lexeme}
      {head words : List Lexeme} {next : Kind} {condition : Expr Unit} {thenDo : List (Stmt Unit)}
      (opens : opening.kind = .keyword .kwIf)
      (test : Derives levels (.nested false) head lineEnd.kind condition)
      (isBreak : lineEnd.kind = .newline)
      (inner : Derives levels (.nestedLines .thenBranch) words closing.kind thenDo)
      (closes : closing.kind = .keyword .kwEnd) :
      Derives levels (.expression line)
        (opening :: (head ++ lineEnd :: (words ++ [closing]))) next
        (.ifBlock condition thenDo ())
  | ifBlockElse {levels : Nat} {line : Bool} {opening lineEnd other elseEnd closing : Lexeme}
      {head words elseWords : List Lexeme} {next : Kind} {condition : Expr Unit}
      {thenDo elseDo : List (Stmt Unit)} (opens : opening.kind = .keyword .kwIf)
      (test : Derives levels (.nested false) head lineEnd.kind condition)
      (isBreak : lineEnd.kind = .newline)
      (inner : Derives levels (.nestedLines .thenBranch) words other.kind thenDo)
      (isElse : other.kind = .keyword .kwElse) (isElseBreak : elseEnd.kind = .newline)
      (innerElse : Derives levels (.nestedLines .elseBranch) elseWords closing.kind elseDo)
      (closes : closing.kind = .keyword .kwEnd) :
      Derives levels (.expression line)
        (opening :: (head ++ lineEnd :: (words ++ other :: elseEnd :: (elseWords ++ [closing]))))
        next (.ifBlockElse condition thenDo elseDo ())
  -- Short statements.
  | breakLoop {levels : Nat} {line : Bool} {word : Lexeme} {next : Kind}
      (isBreak : word.kind = .keyword .kwBreak) :
      Derives levels (.short line) [word] next (.breakLoop ())
  | continueLoop {levels : Nat} {line : Bool} {word : Lexeme} {next : Kind}
      (isContinue : word.kind = .keyword .kwContinue) :
      Derives levels (.short line) [word] next (.continueLoop ())
  | returnNothing {levels : Nat} {line : Bool} {word : Lexeme} {next : Kind}
      (isReturn : word.kind = .keyword .kwReturn) (stops : stopsReturn next = true) :
      Derives levels (.short line) [word] next (.returnNothing ())
  | returnValue {levels : Nat} {line : Bool} {word : Lexeme} {words : List Lexeme} {next : Kind}
      {value : Expr Unit} (isReturn : word.kind = .keyword .kwReturn)
      (inner : Derives levels (.nested false) words next value) :
      Derives levels (.short line) (word :: words) next (.returnValue value ())
  | assign {levels : Nat} {line : Bool} {word : Lexeme} {front back : List Lexeme} {next : Kind}
      {op : AssignOp} {assigned value : Expr Unit} {target : Target Unit}
      (first : Derives levels .indexed front word.kind assigned)
      (isTarget : assigned.toTarget? = some target) (isOp : AssignOp.ofKind? word.kind = some op)
      (second : Derives (levels + 1) (.nested false) back next value) :
      Derives (levels + 1) (.short line) (front ++ word :: back) next
        (.assign target op value ())
  | assignNames {levels : Nat} {word : Lexeme} {front back : List Lexeme} {next : Kind}
      {op : AssignOp} {names : List String} {value : Expr Unit}
      (joined : Joined [.symbol .comma] front names) (several : 2 ≤ names.length)
      (isOp : AssignOp.ofKind? word.kind = some op)
      (inner : Derives levels (.nested false) back next value) :
      Derives levels (.short true) (front ++ word :: back) next
        (.assign (.names names ()) op value ())
  | ofExpression {levels : Nat} {line : Bool} {words : List Lexeme} {next : Kind}
      {value : Expr Unit} (inner : Derives levels (.nested line) words next value) :
      Derives levels (.short line) words next (.expression value ())
  -- Statements that need lines of their own.
  | use {levels : Nat} {opening : Lexeme} {words : List Lexeme} {next : Kind} {path : List String}
      (opens : opening.kind = .keyword .kwUse)
      (joined : Joined [.symbol .doubleColon, .symbol .dot] words path) :
      Derives levels .statement (opening :: words) next (.use path ())
  | classBare {levels : Nat} {opening name lineEnd closing : Lexeme} {words : List Lexeme}
      {next : Kind} {body : List (Stmt Unit)} (opens : opening.kind = .keyword .kwClass)
      (isName : name.kind = .name) (isBreak : lineEnd.kind = .newline)
      (inner : Derives levels (.nestedLines .classBody) words closing.kind body)
      (closes : closing.kind = .keyword .kwEnd) :
      Derives levels .statement (opening :: name :: lineEnd :: (words ++ [closing])) next
        (.classBare name.text body ())
  | classFields {levels : Nat} {opening name bracket lineEnd closing : Lexeme}
      {list words : List Lexeme} {next : Kind} {fields : List (Param Unit)} {divided : Bool}
      {body : List (Stmt Unit)} (opens : opening.kind = .keyword .kwClass)
      (isName : name.kind = .name) (isBracket : bracket.kind = .symbol .lparen)
      (params : Derives levels (.items .param .round) list lineEnd.kind (fields, divided))
      (isBreak : lineEnd.kind = .newline)
      (inner : Derives levels (.nestedLines .classBody) words closing.kind body)
      (closes : closing.kind = .keyword .kwEnd) :
      Derives levels .statement
        (opening :: name :: bracket :: (list ++ lineEnd :: (words ++ [closing]))) next
        (.classFields name.text fields body ())
  | methodValue {levels : Nat} {opening bracket equals : Lexeme} {head list words : List Lexeme}
      {next : Kind} {shared : Bool} {name : String} {fields : List (Param Unit)} {divided : Bool}
      {value : Expr Unit} (opens : opening.kind = .keyword .kwDef)
      (named : MethodName shared head name) (isBracket : bracket.kind = .symbol .lparen)
      (params : Derives levels (.items .param .round) list equals.kind (fields, divided))
      (isEquals : equals.kind = .symbol .assign)
      (inner : Derives levels (.nested false) words next value) :
      Derives levels .statement
        (opening :: (head ++ bracket :: (list ++ equals :: words))) next
        (.methodValue shared name fields value ())
  | methodBlock {levels : Nat} {opening bracket lineEnd closing : Lexeme}
      {head list words : List Lexeme} {next : Kind} {shared : Bool} {name : String}
      {fields : List (Param Unit)} {divided : Bool} {body : List (Stmt Unit)}
      (opens : opening.kind = .keyword .kwDef) (named : MethodName shared head name)
      (isBracket : bracket.kind = .symbol .lparen)
      (params : Derives levels (.items .param .round) list lineEnd.kind (fields, divided))
      (isBreak : lineEnd.kind = .newline)
      (inner : Derives levels (.nestedLines .methodBody) words closing.kind body)
      (closes : closing.kind = .keyword .kwEnd) :
      Derives levels .statement
        (opening :: (head ++ bracket :: (list ++ lineEnd :: (words ++ [closing])))) next
        (.methodBlock shared name fields body ())
  | forLoop {levels : Nat} {opening middle lineEnd closing : Lexeme} {head list words : List Lexeme}
      {next : Kind} {bindings : List String} {source : Expr Unit} {body : List (Stmt Unit)}
      (opens : opening.kind = .keyword .kwFor) (joined : Joined [.symbol .comma] head bindings)
      (isIn : middle.kind = .keyword .kwIn)
      (elements : Derives levels (.nested false) list lineEnd.kind source)
      (isBreak : lineEnd.kind = .newline)
      (inner : Derives levels (.nestedLines .forBody) words closing.kind body)
      (closes : closing.kind = .keyword .kwEnd) :
      Derives levels .statement
        (opening :: (head ++ middle :: (list ++ lineEnd :: (words ++ [closing])))) next
        (.forLoop bindings source body ())
  | whileLoop {levels : Nat} {opening lineEnd closing : Lexeme} {head words : List Lexeme}
      {next : Kind} {condition : Expr Unit} {body : List (Stmt Unit)}
      (opens : opening.kind = .keyword .kwWhile)
      (test : Derives levels (.nested false) head lineEnd.kind condition)
      (isBreak : lineEnd.kind = .newline)
      (inner : Derives levels (.nestedLines .whileBody) words closing.kind body)
      (closes : closing.kind = .keyword .kwEnd) :
      Derives levels .statement
        (opening :: (head ++ lineEnd :: (words ++ [closing]))) next
        (.whileLoop condition body ())
  | ofShort {levels : Nat} {words : List Lexeme} {next : Kind} {stmt : Stmt Unit}
      (inner : Derives levels (.short true) words next stmt) :
      Derives levels .statement words next stmt
  -- Lines of a block, each empty or with one statement.
  | noLine {levels : Nat} {block : Block} {next : Kind} (ends : block.endsAt next = true) :
      Derives levels (.lines block) [] next []
  | emptyLine {levels : Nat} {block : Block} {lineEnd : Lexeme} {words : List Lexeme} {next : Kind}
      {body : List (Stmt Unit)} (isBreak : lineEnd.kind = .newline)
      (rest : Derives levels (.lines block) words next body) :
      Derives levels (.lines block) (lineEnd :: words) next body
  | line {levels : Nat} {block : Block} {lineEnd : Lexeme} {head words : List Lexeme} {next : Kind}
      {first : Stmt Unit} {body : List (Stmt Unit)}
      (inner : Derives levels .statement head lineEnd.kind first)
      (isBreak : lineEnd.kind = .newline) (rest : Derives levels (.lines block) words next body) :
      Derives levels (.lines block) (head ++ lineEnd :: words) next (first :: body)
  -- Bracketed lists.
  | expressionItem {levels : Nat} {words : List Lexeme} {next : Kind} {value : Expr Unit}
      (inner : Derives levels (.nested false) words next value) :
      Derives levels (.item .expression) words next value
  | entryItem {levels : Nat} {key colon : Lexeme} {words : List Lexeme} {next : Kind}
      {value : Expr Unit} (isKey : key.kind = .name) (isColon : colon.kind = .symbol .colon)
      (inner : Derives levels (.nested false) words next value) :
      Derives levels (.item .entry) (key :: colon :: words) next
        (.mk key.text value () : Entry Unit)
  | plainItem {levels : Nat} {name : Lexeme} {next : Kind} (isName : name.kind = .name) :
      Derives levels (.item .param) [name] next (.plain name.text () : Param Unit)
  | defaultedItem {levels : Nat} {name equals : Lexeme} {words : List Lexeme} {next : Kind}
      {value : Expr Unit} (isName : name.kind = .name) (isEquals : equals.kind = .symbol .assign)
      (inner : Derives levels (.nested false) words next value) :
      Derives levels (.item .param) (name :: equals :: words) next
        (.defaulted name.text value () : Param Unit)
  | noItem {levels : Nat} {part : Part} {bracket : Bracket} {closing : Lexeme} {front : List Lexeme}
      {next : Kind} (before : Breaks front) (closes : closing.kind = .symbol bracket.close) :
      Derives levels (.items part bracket) (front ++ [closing]) next ([], false)
  | lastItem {levels : Nat} {part : Part} {bracket : Bracket} {closing : Lexeme}
      {front words back : List Lexeme} {next : Kind} {value : part.Tree Unit}
      (before : Breaks front)
      (inner : Derives levels (.item part) words (leading closing.kind back) value)
      (after : Breaks back) (closes : closing.kind = .symbol bracket.close) :
      Derives levels (.items part bracket) (front ++ (words ++ (back ++ [closing]))) next
        ([value], false)
  | moreItems {levels : Nat} {part : Part} {bracket : Bracket} {comma : Lexeme}
      {front words back rest : List Lexeme} {next : Kind} {value : part.Tree Unit}
      {values : List (part.Tree Unit)} {divided : Bool} (before : Breaks front)
      (inner : Derives levels (.item part) words (leading comma.kind back) value)
      (after : Breaks back) (isComma : comma.kind = .symbol .comma)
      (others : Derives levels (.items part bracket) rest next (values, divided)) :
      Derives levels (.items part bracket) (front ++ (words ++ (back ++ comma :: rest))) next
        (value :: values, true)

/-- The words form the program, with at most the given number of levels nested in it. Behind the
lines of a program stands the end of the input, and nothing else. -/
def AcceptsWithin (levels : Nat) (words : List Lexeme) (program : Program Unit) : Prop :=
  ∃ front stop,
    words = front ++ [stop] ∧ stop.kind = .endOfInput ∧
      Derives levels (.nestedLines .program) front stop.kind program.body

def Accepts (words : List Lexeme) (program : Program Unit) : Prop :=
  ∃ levels, AcceptsWithin levels words program

end Parlance.Grammar
