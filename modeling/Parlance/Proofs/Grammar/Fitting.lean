import Parlance.Proofs.Grammar.Alone
import Parlance.Proofs.Grammar.Rules
import Parlance.Proofs.Token.Slicing

/-!
Contract: nodes fit the rows of tokens they were read from.

A node fits a row of tokens if its mark is the span of the row, the words of the row form the node,
and its children fit rows in that row, one behind the other (`Fits`, `Rows`). Before a row that a
node fits, no token ends an operand, so a minus sign at its front means the same wherever it stands.
Owns: these relations, and for each kind of tree that parsers give, what it means that tokens form it
and that it fits them (`ExprOf`, `StmtOf`, `ItemOf`, `ListOf`, `LinesOf`).
-/

namespace Parlance.Grammar

open Lexeme Parlance.Parser

/-! ## Rows -/

/-- The node that an item of a list is. -/
def Part.node : (part : Part) → part.Tree Span → Node Span
  | .expression => .expr
  | .entry => .entry
  | .param => .param

/-- Behind a token of the kind `before`, if there is one, the nodes fit rows of the tokens, one
behind the other, with other tokens before, between and behind them. -/
inductive Rows (fits : Option Kind → List Token → Node Span → Prop) :
    Option Kind → List Token → List (Node Span) → Prop where
  | done {before : Option Kind} {tokens : List Token} :
      Rows fits before tokens []
  | skip {before : Option Kind} {token : Token} {tokens : List Token} {nodes : List (Node Span)}
      (more : Rows fits (some token.kind) tokens nodes) :
      Rows fits before (token :: tokens) nodes
  | child {before : Option Kind} {own tokens : List Token} {node : Node Span}
      {nodes : List (Node Span)} (first : fits before own node)
      (more : Rows fits (kindBehind before own) tokens nodes) :
      Rows fits before (own ++ tokens) (node :: nodes)

/-- Behind a token of the kind `before`, if there is one, the node fits the row of tokens. -/
inductive Fits (depth : Nat) : Option Kind → List Token → Node Span → Prop where
  | mk {before : Option Kind} {tokens : List Token} {node : Node Span} (quiet : Quiet before)
      (mark : node.mark = rowSpan tokens) (forms : Forms depth (tokens.map Token.lexeme) node)
      (inner : Rows (Fits depth) before tokens node.children) :
      Fits depth before tokens node

namespace Rows

variable {fits : Option Kind → List Token → Node Span → Prop}
variable {before : Option Kind} {front back : List Token} {nodes others : List (Node Span)}

theorem extend (rows : Rows fits before front nodes) (back : List Token) :
    Rows fits before (front ++ back) nodes := by
  induction rows with
  | done => exact .done
  | skip more ih => exact .skip ih
  | child first more ih =>
    rw [List.append_assoc]
    exact .child first ih

theorem skipAll {token : Token} (more : Rows fits (some token.kind) back nodes)
    (front : List Token) :
    Rows fits before (front ++ token :: back) nodes := by
  induction front generalizing before with
  | nil => exact .skip more
  | cons other front ih => exact .skip ih

/-- Rows and then, behind a token that belongs to none of them, more rows. -/
theorem append {token : Token} (rows : Rows fits before front nodes)
    (more : Rows fits (some token.kind) back others) :
    Rows fits before (front ++ token :: back) (nodes ++ others) := by
  induction rows with
  | done => exact more.skipAll _
  | skip _ ih => exact .skip ih
  | child first _ ih =>
    rw [List.append_assoc]
    exact .child first ih

end Rows

/-! ## Rows at the start of an operand -/

/-- The nodes fit rows of the tokens wherever an operand may begin. -/
def Strung (depth : Nat) (tokens : List Token) (nodes : List (Node Span)) : Prop :=
  ∀ before, Quiet before → Rows (Fits depth) before tokens nodes

/-- The node fits the tokens wherever an operand may begin. -/
def Fitted (depth : Nat) (tokens : List Token) (node : Node Span) : Prop :=
  ∀ before, Quiet before → Fits depth before tokens node

/-- The mark of the node is the span of the tokens, and its children fit rows of them. -/
structure Spread (depth : Nat) (tokens : List Token) (node : Node Span) : Prop where
  mark : node.mark = rowSpan tokens
  inner : Strung depth tokens node.children

variable {depth : Nat} {front back tokens : List Token} {node : Node Span}
variable {nodes others : List (Node Span)} {token : Token} {kind : Kind}

theorem quiet_of_kind (isKind : token.kind = kind) (mute : kind.endsOperand = false) :
    Quiet (some token.kind) := by
  rw [isKind]
  exact mute

theorem Spread.fitted (spread : Spread depth tokens node)
    (forms : Forms depth (tokens.map Token.lexeme) node) :
    Fitted depth tokens node :=
  fun before quiet => .mk quiet spread.mark forms (spread.inner before quiet)

namespace Fitted

theorem mark (fitted : Fitted depth tokens node) : node.mark = rowSpan tokens := by
  cases fitted none rfl with
  | mk quiet mark forms inner => exact mark

theorem forms (fitted : Fitted depth tokens node) : Forms depth (tokens.map Token.lexeme) node := by
  cases fitted none rfl with
  | mk quiet mark forms inner => exact forms

theorem filled (fitted : Fitted depth tokens node) : tokens ≠ [] := by
  rintro rfl
  obtain ⟨⟨first, rest, same, -⟩, -⟩ := fitted.forms.ends
  cases same

end Fitted

namespace Strung

theorem none : Strung depth tokens [] :=
  fun _ _ => .done

theorem one (fitted : Fitted depth tokens node) : Strung depth tokens [node] := by
  intro before quiet
  rw [← List.append_nil tokens]
  exact .child (fitted before quiet) .done

theorem extend (strung : Strung depth front nodes) (back : List Token) :
    Strung depth (front ++ back) nodes :=
  fun before quiet => (strung before quiet).extend back

theorem skip (isKind : token.kind = kind) (mute : kind.endsOperand = false)
    (more : Strung depth back nodes) :
    Strung depth (token :: back) nodes :=
  fun _ _ => .skip (more _ (quiet_of_kind isKind mute))

/-- Tokens before rows belong to none of them, if the last does not end an operand. -/
theorem skipTo (front : List Token) (isKind : token.kind = kind) (mute : kind.endsOperand = false)
    (more : Strung depth back nodes) :
    Strung depth (front ++ token :: back) nodes :=
  fun _ _ => (more _ (quiet_of_kind isKind mute)).skipAll front

theorem append (strung : Strung depth front nodes) (isKind : token.kind = kind)
    (mute : kind.endsOperand = false) (more : Strung depth back others) :
    Strung depth (front ++ token :: back) (nodes ++ others) :=
  fun before quiet => (strung before quiet).append (more _ (quiet_of_kind isKind mute))

/-- Line breaks before rows belong to none of them. -/
theorem indent (breaks : Breaks (front.map Token.lexeme)) (more : Strung depth back nodes) :
    Strung depth (front ++ back) nodes := by
  induction front with
  | nil => exact more
  | cons token front ih =>
    have isBreak : token.kind = .newline := breaks token.lexeme List.mem_cons_self
    have behind : Breaks (front.map Token.lexeme) := fun word member =>
      breaks word (List.mem_cons_of_mem _ member)
    exact .skip isBreak rfl (ih behind)

end Strung

/-! ## What tokens form -/

section Formed

variable {words : List Lexeme} {next : Kind} {levels : Nat} {line : Bool}

/-- The tokens form the expression as a phrase of some kind, and it fits them. -/
structure ExprOf (depth : Nat) (derives : List Lexeme → Kind → Expr Unit → Prop)
    (tokens : List Token) (next : Kind) (value : Expr Span) : Prop where
  words : derives (tokens.map Token.lexeme) next value.shape
  fitted : Fitted depth tokens (.expr value)

/-- The tokens form the statement as a phrase of some kind, and it fits them. -/
structure StmtOf (depth : Nat) (derives : List Lexeme → Kind → Stmt Unit → Prop)
    (tokens : List Token) (next : Kind) (stmt : Stmt Span) : Prop where
  words : derives (tokens.map Token.lexeme) next stmt.shape
  fitted : Fitted depth tokens (.stmt stmt)

/-- The tokens form the statements as lines of some kind, and these fit rows of them. -/
structure LinesOf (depth : Nat) (derives : List Lexeme → Kind → List (Stmt Unit) → Prop)
    (tokens : List Token) (next : Kind) (body : List (Stmt Span)) : Prop where
  words : derives (tokens.map Token.lexeme) next (body.map Stmt.shape)
  strung : Strung depth tokens (body.map .stmt)

/-- The tokens form the item of a list, and it fits them. -/
structure ItemOf (depth levels : Nat) (part : Part) (tokens : List Token) (next : Kind)
    (item : part.Tree Span) : Prop where
  words : Derives levels (.item part) (tokens.map Token.lexeme) next (part.shape item)
  fitted : Fitted depth tokens (part.node item)

/-- The tokens form a list up to its closing bracket, and its items fit rows of them. -/
structure ListOf (depth levels : Nat) (part : Part) (bracket : Bracket) (tokens : List Token)
    (next : Kind) (list : Listed (part.Tree Span)) : Prop where
  words : Derives levels (.items part bracket) (tokens.map Token.lexeme) next
    (list.items.map part.shape, list.divided)
  closes : ∃ front, tokens = front ++ [list.close]
  strung : Strung depth tokens (list.items.map part.node)

theorem ListOf.filled {part : Part} {bracket : Bracket} {list : Listed (part.Tree Span)}
    (listOf : ListOf depth levels part bracket tokens next list) :
    tokens ≠ [] := by
  obtain ⟨front, rfl⟩ := listOf.closes
  simp

/-! An expression fits tokens that form a full expression, if its mark is their span and its
children fit rows of them. -/

section Expressions

variable {value : Expr Span} (room : levels + 2 ≤ depth) (mark : value.mark = rowSpan tokens)
variable (inner : Strung depth tokens value.children)

include room mark inner

theorem ExprOf.of {derives : List Lexeme → Kind → Expr Unit → Prop}
    (phrase : derives words next value.shape)
    (full : Derives levels (.expression line) words next value.shape)
    (row : tokens.map Token.lexeme = words) :
    ExprOf depth derives tokens next value := by
  subst row
  refine ⟨phrase, fun before quiet => .mk quiet mark ?_ (inner before quiet)⟩
  exact ⟨levels, room, (full.closed rfl .newline rfl).onLine⟩

theorem ExprOf.ofExpression (full : Derives levels (.expression line) words next value.shape)
    (row : tokens.map Token.lexeme = words) :
    ExprOf depth (Derives levels (.expression line)) tokens next value :=
  .of room mark inner full full row

theorem ExprOf.ofIndexed (indexed : Derives levels .indexed words next value.shape)
    (row : tokens.map Token.lexeme = words) :
    ExprOf depth (Derives levels .indexed) tokens next value :=
  .of room mark inner indexed indexed.expression_of_indexed row

theorem ExprOf.ofMembers (members : Derives levels .members words next value.shape)
    (row : tokens.map Token.lexeme = words) :
    ExprOf depth (Derives levels .members) tokens next value :=
  .of room mark inner members (Derives.expression_of_indexed (.ofMembers members)) row

theorem ExprOf.ofPrimary (primary : Derives levels .primary words next value.shape)
    (row : tokens.map Token.lexeme = words) :
    ExprOf depth (Derives levels .primary) tokens next value :=
  .of room mark inner primary (Derives.expression_of_indexed (.ofMembers (.ofPrimary primary))) row

end Expressions

/-! The same for a statement and tokens that form a line. -/

section Statements

variable {stmt : Stmt Span} (room : levels + 1 ≤ depth) (mark : stmt.mark = rowSpan tokens)
variable (inner : Strung depth tokens stmt.children)

include room mark inner

theorem StmtOf.ofStatement (phrase : Derives levels .statement words next stmt.shape)
    (row : tokens.map Token.lexeme = words) :
    StmtOf depth (Derives levels .statement) tokens next stmt := by
  subst row
  refine ⟨phrase, fun before quiet => .mk quiet mark ?_ (inner before quiet)⟩
  exact ⟨levels, room, phrase.closed rfl .newline rfl⟩

theorem StmtOf.ofShort (short : Derives levels (.short line) words next stmt.shape)
    (row : tokens.map Token.lexeme = words) :
    StmtOf depth (Derives levels (.short line)) tokens next stmt := by
  have lined : Derives levels (.short true) words .newline stmt.shape :=
    (short.closed rfl .newline rfl).onLine
  subst row
  refine ⟨short, fun before quiet => .mk quiet mark ?_ (inner before quiet)⟩
  exact ⟨levels, room, .ofShort lined⟩

end Statements

end Formed

end Parlance.Grammar
