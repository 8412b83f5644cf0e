import Parlance.Grammar.Short

/-!
Contract: the rules of expressions.

From tight to loose: primaries, calls and members, indexing, minus signs, `not`, and six ranks of
binary operators, each of which groups to the left. An `if` is an expression of its own that no
operator takes as an operand. Embeds `_parse_expression` and what it calls, down to
`_parse_closure`.
-/

namespace Parlance.Grammar

open Parlance.Parser

def path : Parser (Expr Span) := do
  let first ← take
  match ← segments [.symbol .doubleColon] .pathSegment first.text with
  | [name] => return .variable name first.span
  | names => return .path names (← spanFrom first.span)

/-- A tuple if empty or divided by a comma, and otherwise a grouping. -/
def parenthesized (inner : Nested) : Parser (Expr Span) := do
  let start := (← take).span
  let list ← listed .round (inner.expression false)
  let span ← spanFrom start
  match list.items, list.divided with
  | [value], false => return .grouping value span
  | items, _ => return .tuple items span

def entry (inner : Nested) : Parser (Entry Span) := do
  let key ← expect .name .dictionaryKey
  let _ ← expect (.symbol .colon) .dictionaryColon
  let value ← inner.expression false
  return .mk key.text value (key.span.through value.mark)

def array (inner : Nested) (start : Span) : Parser (Expr Span) := do
  let list ← listed .square (inner.expression false)
  return .array list.items (← spanFrom start)

/-- A dictionary if it begins with a colon or with a name and a colon, and otherwise an array. -/
def bracketed (inner : Nested) : Parser (Expr Span) := do
  let start := (← take).span
  skipLineBreaks
  if ← accept (.symbol .colon) then
    skipLineBreaks
    let _ ← expect (.symbol .rbracket) .emptyDictionaryEnd
    return .dictionary [] (← spanFrom start)
  else if ← next .name then
    if (← peekSecond).kind == .symbol .colon then
      let list ← listed .square (entry inner)
      return .dictionary list.items (← spanFrom start)
    else array inner start
  else array inner start

/-- A closure, whose body is a block behind `do` and a short statement otherwise. -/
def closure (inner : Nested) : Parser (Expr Span) := do
  let start := (← take).span
  let params ← names
  let _ ← expect (.symbol .arrow) .closureArrow
  if ← accept (.keyword .kwDo) then
    let _ ← expect .newline .doLineEnd
    let body ← inner.block .closureBody
    let _ ← expect (.keyword .kwEnd) .closureEnd
    return .closureBlock params body (← spanFrom start)
  else
    let body ← shortStatement inner false
    let _ ← expect (.keyword .kwEnd) .closureEnd
    return .closureLine params body (← spanFrom start)

def primary (inner : Nested) : Parser (Expr Span) := do
  let token ← peek
  match token.kind with
  | .number =>
    let _ ← take
    return .number token.text token.span
  | .string =>
    let _ ← take
    return .string token.text token.quote token.span
  | .boolean =>
    let _ ← take
    return .boolean (token.text == "true") token.span
  | .nil =>
    let _ ← take
    return .nil token.span
  | .name => path
  | .symbol .lparen => parenthesized inner
  | .symbol .lbracket => bracketed inner
  | .keyword .kwFn => closure inner
  | _ => reject .expression

def calls (inner : Nested) (callee : Expr Span) : Parser (Expr Span) :=
  foldWhile (ofKind (.symbol .lparen))
    (fun callee _ => do
      let list ← listed .round (inner.expression false)
      return .call callee list.items (callee.mark.through list.close.span))
    callee

def membersFrom (inner : Nested) (first : Expr Span) : Parser (Expr Span) := do
  let first ← calls inner first
  foldWhile (ofKind (.symbol .dot))
    (fun owner _ => do
      let member ← expect .name .memberName
      calls inner (.access owner member.text (owner.mark.through member.span)))
    first

def members (inner : Nested) : Parser (Expr Span) :=
  primary inner >>= membersFrom inner

def indexedFrom (inner : Nested) (first : Expr Span) : Parser (Expr Span) :=
  foldWhile (ofKind (.symbol .lbracket))
    (fun owner _ => do
      let index ← inner.expression false
      let _ ← expect (.symbol .rbracket) .indexEnd
      return .index owner index (← spanFrom owner.mark))
    first

def indexed (inner : Nested) : Parser (Expr Span) :=
  members inner >>= indexedFrom inner

/-- Any number of one operator before an operand, behind those that have been read. -/
def prefixedFrom (op : UnaryOp) (operand : Parser (Expr Span))
    (spans : List Span) : Parser (Expr Span) := do
  let spans ← foldWhile (ofKind op.kind) (fun spans token => return spans ++ [token.span]) spans
  let value ← operand
  return spans.foldr (fun span value => .unary op value (span.through value.mark)) value

/-- An operand of binary operators: any number of `not`, then of minus signs. -/
def operand (inner : Nested) : Parser (Expr Span) :=
  prefixedFrom .not (prefixedFrom .minus (indexed inner) []) []

def operatorAt (looseness : Nat) (token : Token) : Option BinaryOp :=
  match BinaryOp.ofKind? token.kind with
  | some op => if op.looseness == looseness then some op else none
  | none => none

/-- Operators of one rank and operands behind what stands so far. -/
def operatorsFrom (looseness : Nat) (operand : Parser (Expr Span))
    (first : Expr Span) : Parser (Expr Span) :=
  foldWhile (operatorAt looseness)
    (fun left op => do
      let right ← operand
      return .binary left op right (left.mark.through right.mark))
    first

/-- Operands and binary operators up to the given looseness. Each rank groups to the left. -/
def binary (inner : Nested) : Nat → Parser (Expr Span)
  | 0 => operand inner
  | looseness + 1 =>
    binary inner looseness >>= operatorsFrom (looseness + 1) (binary inner looseness)

/-- The branches of a conditional: on one line behind `then`, and otherwise blocks. -/
def branches (inner : Nested) (line : Bool) (start : Span)
    (condition : Expr Span) : Parser (Expr Span) := do
  if ← accept (.keyword .kwThen) then
    let thenDo ← shortStatement inner line
    if ← accept (.keyword .kwElse) then
      let elseDo ← shortStatement inner line
      return .ifLineElse condition thenDo elseDo (← spanFrom start)
    else return .ifLine condition thenDo (← spanFrom start)
  else
    let _ ← expect .newline .thenOrLineEnd
    let thenDo ← inner.block .thenBranch
    if ← accept (.keyword .kwElse) then
      let _ ← expect .newline .elseLineEnd
      let elseDo ← inner.block .elseBranch
      let _ ← take
      return .ifBlockElse condition thenDo elseDo (← spanFrom start)
    else
      let _ ← take
      return .ifBlock condition thenDo (← spanFrom start)

def conditional (inner : Nested) (line : Bool) : Parser (Expr Span) := do
  let start := (← take).span
  branches inner line start (← inner.expression false)

def expression (inner : Nested) (line : Bool) : Parser (Expr Span) := do
  if ← next (.keyword .kwIf) then conditional inner line
  else binary inner BinaryOp.loosest

end Parlance.Grammar
