import Parlance.Layout.Draft
import Parlance.Syntax

/-!
Contract: programs as source text.

Owns: the layout of every tree, the canonical text of a program, and the run of the printer that
writes it. Block and one-line forms are kept as they are in the tree, and so are groupings. The
nesting level of blocks is passed down and decides how deep lines are indented. Embeds
`ConcordeFormatter.format`, on trees without misplaced parts.
-/

namespace Parlance

variable {σ : Type}

mutual

def Expr.layout (level : Nat) : Expr σ → Layout
  | .number literal _ => [.word literal]
  | .string value quote _ => [.quoted quote value]
  | .boolean value _ => Layout.boolean value
  | .nil _ => [.word "nil"]
  | .tuple elements _ => Layout.tuple (Expr.layouts level elements)
  | .array elements _ => Layout.bracketed (Layout.commas (Expr.layouts level elements))
  | .dictionary entries _ => Layout.dictionary (Entry.layouts level entries)
  | .variable name _ => [.word name]
  | .path segments _ => Layout.path segments
  | .grouping inner _ => Layout.parenthesized (inner.layout level)
  | .closureLine params body _ => Layout.closureLine params (body.layout level)
  | .closureBlock params body _ => Layout.closureBlock level params (Stmt.layouts (level + 1) body)
  | .ifLine condition thenDo _ => Layout.ifLine (condition.layout level) (thenDo.layout level)
  | .ifLineElse condition thenDo elseDo _ =>
    Layout.ifLineElse (condition.layout level) (thenDo.layout level) (elseDo.layout level)
  | .ifBlock condition thenDo _ =>
    Layout.ifBlock level (condition.layout level) (Stmt.layouts (level + 1) thenDo)
  | .ifBlockElse condition thenDo elseDo _ =>
    Layout.ifBlockElse level (condition.layout level) (Stmt.layouts (level + 1) thenDo)
      (Stmt.layouts (level + 1) elseDo)
  | .unary op operand _ => Layout.unary op (operand.layout level)
  | .binary left op right _ =>
    Layout.infixed (left.layout level) op.spelling (right.layout level)
  | .index target place _ => Layout.index (target.layout level) (place.layout level)
  | .access target member _ => Layout.access (target.layout level) member
  | .call target args _ => Layout.call (target.layout level) (Expr.layouts level args)

def Expr.layouts (level : Nat) : List (Expr σ) → List Layout
  | [] => []
  | first :: rest => first.layout level :: Expr.layouts level rest

def Stmt.layout (level : Nat) : Stmt σ → Layout
  | .use path _ => Layout.use path
  | .classBare name body _ =>
    Layout.block level (Layout.classHead name) (Stmt.layouts (level + 1) body)
  | .classFields name fields body _ =>
    Layout.block level (Layout.classFieldsHead name (Param.layouts level fields))
      (Stmt.layouts (level + 1) body)
  | .methodValue shared name params value _ =>
    Layout.infixed (Layout.methodHead shared name (Param.layouts level params)) "="
      (value.layout level)
  | .methodBlock shared name params body _ =>
    Layout.block level (Layout.methodHead shared name (Param.layouts level params))
      (Stmt.layouts (level + 1) body)
  | .forLoop bindings source body _ =>
    Layout.block level (Layout.forHead bindings (source.layout level))
      (Stmt.layouts (level + 1) body)
  | .whileLoop condition body _ =>
    Layout.block level (Layout.whileHead (condition.layout level)) (Stmt.layouts (level + 1) body)
  | .breakLoop _ => [.word "break"]
  | .continueLoop _ => [.word "continue"]
  | .returnNothing _ => [.word "return"]
  | .returnValue value _ => Layout.returnValue (value.layout level)
  | .assign target op value _ =>
    Layout.infixed (target.layout level) op.spelling (value.layout level)
  | .expression value _ => value.layout level

def Stmt.layouts (level : Nat) : List (Stmt σ) → List Layout
  | [] => []
  | first :: rest => first.layout level :: Stmt.layouts level rest

def Param.layout (level : Nat) : Param σ → Layout
  | .plain name _ => [.word name]
  | .defaulted name value _ => Layout.defaulted name (value.layout level)

def Param.layouts (level : Nat) : List (Param σ) → List Layout
  | [] => []
  | first :: rest => first.layout level :: Param.layouts level rest

def Entry.layout (level : Nat) : Entry σ → Layout
  | .mk key value _ => Layout.entry key (value.layout level)

def Entry.layouts (level : Nat) : List (Entry σ) → List Layout
  | [] => []
  | first :: rest => first.layout level :: Entry.layouts level rest

def Target.layout (level : Nat) : Target σ → Layout
  | .variable name _ => [.word name]
  | .access target member _ => Layout.access (target.layout level) member
  | .index target place _ => Layout.index (target.layout level) (place.layout level)
  | .names names _ => Layout.names names

end

mutual

def Expr.draft : Expr σ → Draft
  | .number literal _ => .number literal
  | .string value quote _ => .string value quote
  | .boolean value _ => .boolean value
  | .nil _ => .nil
  | .tuple elements _ => .tuple (Expr.drafts elements)
  | .array elements _ => .array (Expr.drafts elements)
  | .dictionary entries _ => .dictionary (Entry.drafts entries)
  | .variable name _ => .variable name
  | .path segments _ => .path segments
  | .grouping inner _ => .grouping inner.draft
  | .closureLine params body _ => .closure true params [body.draft]
  | .closureBlock params body _ => .closure false params (Stmt.drafts body)
  | .ifLine condition thenDo _ => .conditional true condition.draft [thenDo.draft]
  | .ifLineElse condition thenDo elseDo _ =>
    .conditionalElse true condition.draft [thenDo.draft] [elseDo.draft]
  | .ifBlock condition thenDo _ => .conditional false condition.draft (Stmt.drafts thenDo)
  | .ifBlockElse condition thenDo elseDo _ =>
    .conditionalElse false condition.draft (Stmt.drafts thenDo) (Stmt.drafts elseDo)
  | .unary op operand _ => .unary op operand.draft
  | .binary left op right _ => .binary left.draft op.spelling right.draft
  | .index target place _ => .index target.draft place.draft
  | .access target member _ => .access target.draft member
  | .call target args _ => .call target.draft (Expr.drafts args)

def Expr.drafts : List (Expr σ) → List Draft
  | [] => []
  | first :: rest => first.draft :: Expr.drafts rest

def Stmt.draft : Stmt σ → Draft
  | .use path _ => .use path
  | .classBare name body _ => .classBare name (Stmt.drafts body)
  | .classFields name fields body _ => .classFields name (Param.drafts fields) (Stmt.drafts body)
  | .methodValue shared name params value _ =>
    .method shared name (Param.drafts params) value.draft
  | .methodBlock shared name params body _ =>
    .method shared name (Param.drafts params) (.list (Stmt.drafts body))
  | .forLoop bindings source body _ => .forLoop bindings source.draft (Stmt.drafts body)
  | .whileLoop condition body _ => .whileLoop condition.draft (Stmt.drafts body)
  | .breakLoop _ => .breakLoop
  | .continueLoop _ => .continueLoop
  | .returnNothing _ => .returns .nothing
  | .returnValue value _ => .returns value.draft
  | .assign target op value _ => .assign target.draft op.spelling value.draft
  | .expression value _ => .expression value.draft

def Stmt.drafts : List (Stmt σ) → List Draft
  | [] => []
  | first :: rest => first.draft :: Stmt.drafts rest

def Param.draft : Param σ → Draft
  | .plain name _ => .param name .nothing
  | .defaulted name value _ => .param name value.draft

def Param.drafts : List (Param σ) → List Draft
  | [] => []
  | first :: rest => first.draft :: Param.drafts rest

def Entry.draft : Entry σ → Draft
  | .mk key value _ => .entry key value.draft

def Entry.drafts : List (Entry σ) → List Draft
  | [] => []
  | first :: rest => first.draft :: Entry.drafts rest

def Target.draft : Target σ → Draft
  | .variable name _ => .variable name
  | .access target member _ => .access target.draft member
  | .index target place _ => .index target.draft place.draft
  | .names names _ => .names names

end

def Stmt.declares : Stmt σ → Bool
  | .classBare .. | .classFields .. | .methodValue .. | .methodBlock .. => true
  | _ => false

namespace Program

def rows (program : Program σ) : List Layout.Row :=
  program.body.map fun stmt => ⟨stmt.declares, stmt.layout 0⟩

/-- The canonical text of a program, with blocks indented by the given width. -/
def format (width : Int) (program : Program σ) : String :=
  Layout.page width program.rows

def drafts (program : Program σ) : List Draft :=
  Stmt.drafts program.body

/-- The canonical text of a program, as far as the printer comes. -/
def write (machine : Machine) (width : Option Int) (program : Program σ) :
    Except Draft.Fault String :=
  Draft.write machine width program.drafts

end Program

end Parlance
