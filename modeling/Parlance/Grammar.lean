import Parlance.Grammar.Expression
import Parlance.Grammar.Statement

/-!
Contract: source texts as programs.

Owns: the grammar with its nesting limit, closed level by level, and the reading of a text or a row
of tokens as a program. A block and a full expression open one level each; what stands in them opens
the next, so the number of levels left bounds the grammar's recursion. Embeds `Parser.parse` and
`_nested`.
-/

namespace Parlance

def Grammar.nested (limit : Limit) : Nat → Grammar.Nested
  | 0 => .none limit
  | levels + 1 =>
    let inner := nested limit levels
    { expression := Grammar.expression inner, block := Grammar.block inner }

/-- A whole program. Its span reaches from the first line to the end of the input. -/
def Grammar.program (limit : Limit) : Parser (Program Span) := do
  let body ← (nested limit limit.depth).block .program
  let stop ← Parser.peek
  return ⟨body, ⟨1, 1, stop.span.endLine, stop.span.endColumn, 0⟩⟩

namespace Program

def ofReading (limit : Limit) (reading : Reading) : Except Failure (Program Span) :=
  match (Grammar.program limit).run (.ofReading reading) with
  | .error failure => .error failure
  | .ok (program, _) => .ok program

def ofText (limit : Limit) (text : String) : Except Failure (Program Span) :=
  ofReading limit (.ofText text)

def ofTokens (limit : Limit) (tokens : List Token) : Except Failure (Program Span) :=
  ofReading limit (.ofTokens tokens)

end Program

end Parlance
