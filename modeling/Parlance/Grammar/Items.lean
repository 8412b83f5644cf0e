import Parlance.Grammar.Cursor

/-!
Contract: rows of names and bracketed lists.

Owns: names divided by commas, and lists whose items are divided by commas between two brackets. In
a bracketed list line breaks are free behind the opening bracket, around items and before the
closing bracket, and a comma may follow the last item. Embeds `_parse_binding` and
`_parse_delimited`.
-/

namespace Parlance.Grammar

open Parlance.Parser

def moreNames (names : List String) : Parser (List String) :=
  foldWhile (ofKind (.symbol .comma))
    (fun names _ => return names ++ [(← expect .name .variableName).text]) names

def names : Parser (List String) := do
  let first ← expect .name .variableName
  moreNames [first.text]

def segments (joints : List Kind) (wanted : Expectation) (first : String) : Parser (List String) :=
  foldWhile (fun token => if joints.contains token.kind then some token else none)
    (fun names _ => return names ++ [(← expect .name wanted).text]) [first]

/-- The items between two brackets, whether a comma stood among them, and the closing bracket. -/
structure Listed (α : Type) where
  items : List α
  divided : Bool
  close : Token

/-- The next item of a list, with the line breaks behind it, unless the list closes here. -/
def nextItem {α : Type} (bracket : Bracket) (item : Parser α) : Parser (List α) := do
  if ← next (.symbol bracket.close) then return []
  else
    let value ← item
    skipLineBreaks
    return [value]

/-- A list behind an item and its line breaks, up to and including its closing bracket. -/
def itemsBehind {α : Type} (bracket : Bracket) (item : Parser α) (before : List α)
    (divided : Bool) : Parser (Listed α) := do
  let (items, divided) ← foldWhile (ofKind (.symbol .comma))
    (fun (items, _) _ => do
      skipLineBreaks
      let more ← nextItem bracket item
      return (items ++ more, true))
    (before, divided)
  let close ← expect (.symbol bracket.close) (.itemEnd bracket)
  return ⟨items, divided, close⟩

/-- A list of which some items have been read, at a place where the next may begin. -/
def itemsFrom {α : Type} (bracket : Bracket) (item : Parser α) (before : List α)
    (divided : Bool) : Parser (Listed α) := do
  skipLineBreaks
  let more ← nextItem bracket item
  itemsBehind bracket item (before ++ more) divided

def listed {α : Type} (bracket : Bracket) (item : Parser α) : Parser (Listed α) :=
  itemsFrom bracket item [] false

end Parlance.Grammar
