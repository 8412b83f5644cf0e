/-!
Contract: the bounds of the machine that the program runs on.

The stack and the memory end somewhere, and nothing in the language says where. So their bounds are
a parameter of every run that can reach them: of reading a text, of printing or listing a tree and
of creating folders. Owns: the bounds, and the calls of the printer that a stack has to hold. Does
not own: what happens where a bound is reached.
-/

namespace Parlance

/-- The calls of the printer, each with the function of `ConcordeFormatter` that it is a call of. A
list and a row that is joined are built by calls of their own. -/
inductive Call where
  /-- `format` -/
  | program
  /-- `_is_declaration` -/
  | declaration
  /-- `_format_stmt` -/
  | statement
  /-- `_format_method` -/
  | method
  /-- `_format_params` -/
  | params
  /-- `_format_lvalue` -/
  | target
  /-- `_block` -/
  | block
  /-- `_body_lines` -/
  | lines
  | comprehension
  | generator
  /-- `_pad` -/
  | pad
  /-- `UseDecl.dotted` -/
  | dotted
  /-- `_format_expr` -/
  | expression
  /-- `_format_unary` -/
  | unary
  /-- `_format_binary` -/
  | binary
  /-- `_format_postfix` -/
  | suffixes
  /-- `_format_closure` -/
  | closure
  /-- `_format_if` -/
  | conditional
deriving DecidableEq, Repr

/-- The bounds of the stack and of the memory. -/
structure Machine where
  /-- The levels of blocks and full expressions that a text can nest. -/
  levels : Nat
  /-- The levels of nodes down to which a tree can be listed. -/
  listed : Nat
  /-- The missing folders in a row that can be created. -/
  folders : Nat
  /-- Whether calls of the printer can be open at once, given from the innermost outwards. -/
  holds : List Call → Bool
  /-- Whether a text of so many characters can be stored. -/
  stores : Nat → Bool

/-- Whether a machine word counts a number. -/
def Machine.counts (number : Int) : Bool :=
  decide (-9223372036854775808 ≤ number ∧ number ≤ 9223372036854775807)

/-- A machine that every text can be printed on. -/
def Machine.roomy : Machine where
  levels := 32
  listed := 32
  folders := 32
  holds _ := true
  stores _ := true

end Parlance
