import Parlance.Grammar.Items
import Parlance.Grammar.Limit

/-!
Contract: the statements that need no line of their own.

These are jumps, assignments and bare expressions; they may also stand in the branches of a one-line
`if` and as the body of a one-line closure. Owns: their rules, and which expressions can be
assigned. A row of names without parentheses is a target only where the statement fills a line,
since elsewhere a comma divides list items. Embeds `_parse_short_statement`,
`_parse_assignment_or_expr` and `_to_lvalue`.
-/

namespace Parlance

/-- The names of a list of variables, if it holds nothing else. -/
def Expr.variableNames? {σ : Type} : List (Expr σ) → Option (List String)
  | [] => some []
  | .variable name _ :: rest => (variableNames? rest).map (name :: ·)
  | _ :: _ => none

/-- An expression as an assignment target: a variable, a member, an indexed element, or a non-empty
tuple of variables. -/
def Expr.toTarget? {σ : Type} : Expr σ → Option (Target σ)
  | .variable name mark => some (.variable name mark)
  | .access target member mark => some (.access target member mark)
  | .index target place mark => some (.index target place mark)
  | .tuple (first :: rest) mark => (variableNames? (first :: rest)).map (.names · mark)
  | _ => none

namespace Grammar

open Parlance.Parser

/-- The tokens before which a `return` has no value. -/
def stopsReturn : Kind → Bool
  | .newline | .endOfInput | .keyword .kwElse | .keyword .kwEnd | .symbol .rparen
  | .symbol .rbracket | .symbol .comma => true
  | _ => false

def assignment (inner : Nested) (start : Span) (target : Target Span)
    (op : AssignOp) : Parser (Stmt Span) := do
  let _ ← take
  let value ← inner.expression false
  return .assign target op value (← spanFrom start)

def namesAssignment (inner : Nested) (start : Span) (first : String) : Parser (Stmt Span) := do
  let names ← moreNames [first]
  let target := Target.names names (← spanFrom start)
  match AssignOp.ofKind? (← peek).kind with
  | some op => assignment inner start target op
  | none => reject .assignmentOperator

/-- An assignment behind the expression that is its target, or that expression alone. -/
def plainAssignment (inner : Nested) (start : Span) (value : Expr Span) : Parser (Stmt Span) := do
  match AssignOp.ofKind? (← peek).kind with
  | none => return .expression value value.mark
  | some op =>
    match value.toTarget? with
    | some target => assignment inner start target op
    | none => fail .badTarget value.mark

def assignmentOrExpression (inner : Nested) (line : Bool) : Parser (Stmt Span) := do
  let start := (← peek).span
  let value ← inner.expression line
  let divided ← next (.symbol .comma)
  match value, line && divided with
  | .variable name _, true => namesAssignment inner start name
  | _, _ => plainAssignment inner start value

def returnStatement (inner : Nested) : Parser (Stmt Span) := do
  let start := (← take).span
  if stopsReturn (← peek).kind then return .returnNothing (← spanFrom start)
  else
    let value ← inner.expression false
    return .returnValue value (← spanFrom start)

def shortStatement (inner : Nested) (line : Bool) : Parser (Stmt Span) := do
  match (← peek).kind with
  | .keyword .kwBreak => return .breakLoop (← take).span
  | .keyword .kwContinue => return .continueLoop (← take).span
  | .keyword .kwReturn => returnStatement inner
  | _ => assignmentOrExpression inner line

end Grammar

end Parlance
