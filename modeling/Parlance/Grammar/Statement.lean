import Parlance.Grammar.Short

/-!
Contract: the rules of statements and blocks.

A block is a row of lines, each empty or holding one statement, up to a token that ends the block.
Owns: the constructs that need lines of their own, and the lines of a block. Embeds
`_parse_statement` and what it calls, and `_parse_block`.
-/

namespace Parlance.Grammar

open Parlance.Parser

/-- A module to use, its names joined by double colons or points. -/
def useStatement : Parser (Stmt Span) := do
  let start := (← take).span
  let first ← expect .name .modulePath
  let path ← segments [.symbol .doubleColon, .symbol .dot] .modulePathSegment first.text
  return .use path (← spanFrom start)

def parameter (inner : Nested) : Parser (Param Span) := do
  let name ← expect .name .parameterName
  if ← accept (.symbol .assign) then
    let value ← inner.expression false
    return .defaulted name.text value (← spanFrom name.span)
  else return .plain name.text (← spanFrom name.span)

def parameters (inner : Nested) : Parser (List (Param Span)) := do
  let _ ← take
  return (← listed .round (parameter inner)).items

def closedBlock (inner : Nested) (block : Block) : Parser (List (Stmt Span)) := do
  let body ← inner.block block
  let _ ← take
  return body

def classStatement (inner : Nested) : Parser (Stmt Span) := do
  let start := (← take).span
  let name ← expect .name .className
  if ← next (.symbol .lparen) then
    let fields ← parameters inner
    let _ ← expect .newline .classHeaderEnd
    let body ← closedBlock inner .classBody
    return .classFields name.text fields body (← spanFrom start)
  else
    let _ ← expect .newline .classHeaderEnd
    let body ← closedBlock inner .classBody
    return .classBare name.text body (← spanFrom start)

/-- Takes `self` and a double colon, if both stand here, and tells whether they did. -/
def acceptShared : Parser Bool := do
  let token ← peek
  if token.kind == .name && token.text == "self" then
    if (← peekSecond).kind == .symbol .doubleColon then
      let _ ← take
      let _ ← take
      return true
    else return false
  else return false

def methodStatement (inner : Nested) : Parser (Stmt Span) := do
  let start := (← take).span
  let shared ← acceptShared
  let name ← expect .name .methodName
  if ← next (.symbol .lparen) then
    let params ← parameters inner
    if ← accept (.symbol .assign) then
      let value ← inner.expression false
      return .methodValue shared name.text params value (← spanFrom start)
    else
      let _ ← expect .newline .methodHeaderEnd
      let body ← closedBlock inner .methodBody
      return .methodBlock shared name.text params body (← spanFrom start)
  else reject .parameterList

def forStatement (inner : Nested) : Parser (Stmt Span) := do
  let start := (← take).span
  let bindings ← names
  let _ ← expect (.keyword .kwIn) .loopSource
  let source ← inner.expression false
  let _ ← expect .newline .forHeaderEnd
  let body ← closedBlock inner .forBody
  return .forLoop bindings source body (← spanFrom start)

def whileStatement (inner : Nested) : Parser (Stmt Span) := do
  let start := (← take).span
  let condition ← inner.expression false
  let _ ← expect .newline .whileHeaderEnd
  let body ← closedBlock inner .whileBody
  return .whileLoop condition body (← spanFrom start)

/-- A statement that fills a line or several. -/
def statement (inner : Nested) : Parser (Stmt Span) := do
  match (← peek).kind with
  | .keyword .kwUse => useStatement
  | .keyword .kwClass => classStatement inner
  | .keyword .kwDef => methodStatement inner
  | .keyword .kwFor => forStatement inner
  | .keyword .kwWhile => whileStatement inner
  | _ => shortStatement inner true

def blockLine (inner : Nested) (block : Block) : Parser (List (Stmt Span)) := do
  let kind := (← peek).kind
  if kind == .newline || block.endsAt kind then return []
  else if kind == .endOfInput then reject (.blockEnd block)
  else
    let value ← statement inner
    if ← next .newline then return [value] else reject .lineEnd

/-- The lines of a block up to the token that ends it, which is left. -/
def block (inner : Nested) (block : Block) : Parser (List (Stmt Span)) := do
  let first ← blockLine inner block
  foldWhile (ofKind .newline)
    (fun body _ => return body ++ (← blockLine inner block)) first

end Parlance.Grammar
