import Parlance.Grammar.Cursor
import Parlance.Syntax

/-!
Contract: nesting and its limit.

Blocks and full expressions nest. Every rule of the grammar reaches what is nested in it through a
`Nested`, and only through it, so the rules themselves do not refer to each other in a circle; the
circle is closed once, by counting levels down.

Owns: the limit, the fault at its last level, and the interface to the next level. Does not own: the
rules, nor the closing of the circle. Embeds `_nested`.
-/

namespace Parlance

/-- The greatest number of nested levels, with the text it is shown by and the number of levels that
the stack holds, whatever the limit. -/
structure Limit where
  levels : Nat
  text : String
  capacity : Nat
deriving DecidableEq, Repr

namespace Limit

/-- The limit that applies unless another is set, on a stack that holds it. -/
def standard : Limit := ⟨32, "32", 32⟩

/-- A whole number as a limit. Below one it admits nothing. -/
def ofInt (n : Int) (capacity : Nat) : Limit := ⟨n.toNat, toString n, capacity⟩

def depth (limit : Limit) : Nat :=
  min limit.levels limit.capacity

def fault (limit : Limit) : Fault :=
  if limit.levels ≤ limit.capacity then .tooDeep limit.text else .exhausted limit.text

end Limit

namespace Grammar

/-- What is nested one level deeper. An expression fills a `line` if no comma around it can belong
to a list. -/
structure Nested where
  expression : (line : Bool) → Parser (Expr Span)
  block : Block → Parser (List (Stmt Span))

def tooDeep {α : Type} (limit : Limit) : Parser α := do
  let token ← Parser.peek
  Parser.fail limit.fault token.span

def Nested.none (limit : Limit) : Nested where
  expression _ := tooDeep limit
  block _ := tooDeep limit

end Grammar

end Parlance
