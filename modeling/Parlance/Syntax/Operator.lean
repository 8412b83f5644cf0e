import Parlance.Token

/-!
Contract: the operators of expressions and assignments.

Owns: their spellings, the tokens they are written with, and how loosely a binary operator binds.
-/

namespace Parlance

inductive UnaryOp where
  | not
  | minus
deriving DecidableEq, Repr

inductive BinaryOp where
  | or | and
  | equal | notEqual
  | greater | greaterEqual | less | lessEqual
  | add | subtract
  | multiply | divide | remainder
deriving DecidableEq, Repr

/-- Plain assignment and assignment combined with an operation. -/
inductive AssignOp where
  | set | add | subtract | multiply | divide
deriving DecidableEq, Repr

namespace UnaryOp

def kind : UnaryOp → Kind
  | .not => .keyword .kwNot
  | .minus => .symbol .minus

def spelling : UnaryOp → String
  | .not => "not"
  | .minus => "-"

end UnaryOp

namespace BinaryOp

def spelling : BinaryOp → String
  | .or => "or"
  | .and => "and"
  | .equal => "=="
  | .notEqual => "!="
  | .greater => ">"
  | .greaterEqual => ">="
  | .less => "<"
  | .lessEqual => "<="
  | .add => "+"
  | .subtract => "-"
  | .multiply => "*"
  | .divide => "/"
  | .remainder => "%"

def ofKind? : Kind → Option BinaryOp
  | .keyword .kwOr => some .or
  | .keyword .kwAnd => some .and
  | .symbol .equal => some .equal
  | .symbol .notEqual => some .notEqual
  | .symbol .greater => some .greater
  | .symbol .greaterEqual => some .greaterEqual
  | .symbol .less => some .less
  | .symbol .lessEqual => some .lessEqual
  | .symbol .plus => some .add
  | .symbol .minus => some .subtract
  | .symbol .star => some .multiply
  | .symbol .slash => some .divide
  | .symbol .percent => some .remainder
  | _ => none

/-- How loosely an operator binds: products bind tightest, with one, and `or` loosest. -/
def looseness : BinaryOp → Nat
  | .multiply | .divide | .remainder => 1
  | .add | .subtract => 2
  | .greater | .greaterEqual | .less | .lessEqual => 3
  | .equal | .notEqual => 4
  | .and => 5
  | .or => 6

def loosest : Nat := 6

end BinaryOp

namespace AssignOp

def spelling : AssignOp → String
  | .set => "="
  | .add => "+="
  | .subtract => "-="
  | .multiply => "*="
  | .divide => "/="

def ofKind? : Kind → Option AssignOp
  | .symbol .assign => some .set
  | .symbol .plusAssign => some .add
  | .symbol .minusAssign => some .subtract
  | .symbol .starAssign => some .multiply
  | .symbol .slashAssign => some .divide
  | _ => none

end AssignOp

end Parlance
