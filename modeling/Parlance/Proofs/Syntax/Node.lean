import Parlance.Proofs.Syntax.Shape

/-!
Contract: the nodes of a program.

Owns: one type for every kind of node below a program, with the mark of a node and its children in
the order of their fields, and the nodes that a program has. An assignment target that is a
variable, a member or an element is an expression; several names at once are a node of their own.
Does not own: where nodes stand in a text.
-/

namespace Parlance

variable {σ : Type}

inductive Node (σ : Type) where
  | stmt (stmt : Stmt σ)
  | expr (value : Expr σ)
  | param (param : Param σ)
  | entry (entry : Entry σ)
  /-- Several names that are assigned at once. -/
  | names (names : List String) (mark : σ)

def Target.node : Target σ → Node σ
  | .variable name mark => .expr (.variable name mark)
  | .access target member mark => .expr (.access target member mark)
  | .index target place mark => .expr (.index target place mark)
  | .names several mark => .names several mark

def Expr.children : Expr σ → List (Node σ)
  | .number _ _ | .string _ _ _ | .boolean _ _ | .nil _ | .variable _ _ | .path _ _ => []
  | .tuple elements _ => elements.map .expr
  | .array elements _ => elements.map .expr
  | .dictionary entries _ => entries.map .entry
  | .grouping inner _ => [.expr inner]
  | .closureLine _ body _ => [.stmt body]
  | .closureBlock _ body _ => body.map .stmt
  | .ifLine condition thenDo _ => [.expr condition, .stmt thenDo]
  | .ifLineElse condition thenDo elseDo _ => [.expr condition, .stmt thenDo, .stmt elseDo]
  | .ifBlock condition thenDo _ => .expr condition :: thenDo.map .stmt
  | .ifBlockElse condition thenDo elseDo _ =>
    .expr condition :: (thenDo.map .stmt ++ elseDo.map .stmt)
  | .unary _ operand _ => [.expr operand]
  | .binary left _ right _ => [.expr left, .expr right]
  | .index target place _ => [.expr target, .expr place]
  | .access target _ _ => [.expr target]
  | .call target args _ => .expr target :: args.map .expr

def Stmt.children : Stmt σ → List (Node σ)
  | .use _ _ | .breakLoop _ | .continueLoop _ | .returnNothing _ => []
  | .classBare _ body _ => body.map .stmt
  | .classFields _ fields body _ => fields.map .param ++ body.map .stmt
  | .methodValue _ _ params value _ => params.map .param ++ [.expr value]
  | .methodBlock _ _ params body _ => params.map .param ++ body.map .stmt
  | .forLoop _ source body _ => .expr source :: body.map .stmt
  | .whileLoop condition body _ => .expr condition :: body.map .stmt
  | .returnValue value _ => [.expr value]
  | .assign target _ value _ => [target.node, .expr value]
  | .expression value _ => [.expr value]

def Param.children : Param σ → List (Node σ)
  | .plain _ _ => []
  | .defaulted _ value _ => [.expr value]

def Entry.children : Entry σ → List (Node σ)
  | .mk _ value _ => [.expr value]

namespace Node

def mark : Node σ → σ
  | .stmt inner => inner.mark
  | .expr inner => inner.mark
  | .param inner => inner.mark
  | .entry inner => inner.mark
  | .names _ own => own

/-- The children of a node, in the order of its fields. -/
def children : Node σ → List (Node σ)
  | .stmt inner => inner.children
  | .expr inner => inner.children
  | .param inner => inner.children
  | .entry inner => inner.children
  | .names _ _ => []

/-- The statement that a node is when it stands alone, without its marks. An expression is a
statement of its own; parameters, entries and several names are none. -/
def alone? : Node σ → Option (Stmt Unit)
  | .stmt inner => some inner.shape
  | .expr inner => some (.expression inner.shape ())
  | _ => none

end Node

/-- A node stands in a program: it is one of its statements, or a child of a node in it. -/
inductive Program.Has (program : Program σ) : Node σ → Prop where
  | body {stmt : Stmt σ} (member : stmt ∈ program.body) :
      Program.Has program (.stmt stmt)
  | child {parent node : Node σ} (has : Program.Has program parent)
      (member : node ∈ parent.children) :
      Program.Has program node

end Parlance
