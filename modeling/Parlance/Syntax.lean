import Parlance.Syntax.Operator

/-!
Contract: programs as trees.

Every tree carries a mark `σ` at each node: its span when the tree was read from a text, nothing
when only its shape matters. The one-line and the block form of `if` and of closures are different
nodes, and so are a class with and without a field list, a method given by a value and by a block,
and the optional parts of other constructs, so a tree says exactly which form was written.

Owns: the tree types and the change of marks. Does not own: how trees are read, compared or shown.
-/

namespace Parlance

mutual

inductive Expr (σ : Type) where
  | number (literal : String) (mark : σ)
  | string (value : String) (quote : String) (mark : σ)
  | boolean (value : Bool) (mark : σ)
  | nil (mark : σ)
  | tuple (elements : List (Expr σ)) (mark : σ)
  | array (elements : List (Expr σ)) (mark : σ)
  | dictionary (entries : List (Entry σ)) (mark : σ)
  | variable (name : String) (mark : σ)
  /-- Names joined by double colons. -/
  | path (segments : List String) (mark : σ)
  /-- An expression in parentheses. -/
  | grouping (inner : Expr σ) (mark : σ)
  /-- A function whose body is one short statement. -/
  | closureLine (params : List String) (body : Stmt σ) (mark : σ)
  /-- A function whose body is a block. -/
  | closureBlock (params : List String) (body : List (Stmt σ)) (mark : σ)
  | ifLine (condition : Expr σ) (thenDo : Stmt σ) (mark : σ)
  | ifLineElse (condition : Expr σ) (thenDo : Stmt σ) (elseDo : Stmt σ) (mark : σ)
  | ifBlock (condition : Expr σ) (thenDo : List (Stmt σ)) (mark : σ)
  | ifBlockElse (condition : Expr σ) (thenDo : List (Stmt σ)) (elseDo : List (Stmt σ)) (mark : σ)
  | unary (op : UnaryOp) (operand : Expr σ) (mark : σ)
  | binary (left : Expr σ) (op : BinaryOp) (right : Expr σ) (mark : σ)
  | index (target : Expr σ) (index : Expr σ) (mark : σ)
  | access (target : Expr σ) (member : String) (mark : σ)
  | call (target : Expr σ) (args : List (Expr σ)) (mark : σ)

inductive Stmt (σ : Type) where
  | use (path : List String) (mark : σ)
  /-- A class without a field list. -/
  | classBare (name : String) (body : List (Stmt σ)) (mark : σ)
  /-- A class with a field list, which may be empty. -/
  | classFields (name : String) (fields : List (Param σ)) (body : List (Stmt σ)) (mark : σ)
  /-- A method whose body is a value. -/
  | methodValue (shared : Bool) (name : String) (params : List (Param σ)) (value : Expr σ)
      (mark : σ)
  /-- A method whose body is a block. -/
  | methodBlock (shared : Bool) (name : String) (params : List (Param σ)) (body : List (Stmt σ))
      (mark : σ)
  | forLoop (bindings : List String) (source : Expr σ) (body : List (Stmt σ)) (mark : σ)
  | whileLoop (condition : Expr σ) (body : List (Stmt σ)) (mark : σ)
  | breakLoop (mark : σ)
  | continueLoop (mark : σ)
  | returnNothing (mark : σ)
  | returnValue (value : Expr σ) (mark : σ)
  | assign (target : Target σ) (op : AssignOp) (value : Expr σ) (mark : σ)
  | expression (value : Expr σ) (mark : σ)

inductive Param (σ : Type) where
  | plain (name : String) (mark : σ)
  | defaulted (name : String) (value : Expr σ) (mark : σ)

inductive Entry (σ : Type) where
  | mk (key : String) (value : Expr σ) (mark : σ)

inductive Target (σ : Type) where
  | variable (name : String) (mark : σ)
  | access (target : Expr σ) (member : String) (mark : σ)
  | index (target : Expr σ) (index : Expr σ) (mark : σ)
  /-- Several names at once. -/
  | names (names : List String) (mark : σ)

end

structure Program (σ : Type) where
  body : List (Stmt σ)
  mark : σ

section Marks

variable {σ τ : Type}

def Expr.mark : Expr σ → σ
  | .number _ mark | .string _ _ mark | .boolean _ mark | .nil mark | .tuple _ mark | .array _ mark
  | .dictionary _ mark | .variable _ mark | .path _ mark | .grouping _ mark | .closureLine _ _ mark
  | .closureBlock _ _ mark | .ifLine _ _ mark | .ifLineElse _ _ _ mark | .ifBlock _ _ mark
  | .ifBlockElse _ _ _ mark | .unary _ _ mark | .binary _ _ _ mark | .index _ _ mark
  | .access _ _ mark | .call _ _ mark => mark

def Stmt.mark : Stmt σ → σ
  | .use _ mark | .classBare _ _ mark | .classFields _ _ _ mark | .methodValue _ _ _ _ mark
  | .methodBlock _ _ _ _ mark | .forLoop _ _ _ mark | .whileLoop _ _ mark | .breakLoop mark
  | .continueLoop mark | .returnNothing mark | .returnValue _ mark | .assign _ _ _ mark
  | .expression _ mark => mark

def Param.mark : Param σ → σ
  | .plain _ mark | .defaulted _ _ mark => mark

def Param.name : Param σ → String
  | .plain name _ | .defaulted name _ _ => name

def Entry.mark : Entry σ → σ
  | .mk _ _ mark => mark

def Target.mark : Target σ → σ
  | .variable _ mark | .access _ _ mark | .index _ _ mark | .names _ mark => mark

mutual

def Expr.map (f : σ → τ) : Expr σ → Expr τ
  | .number literal mark => .number literal (f mark)
  | .string value quote mark => .string value quote (f mark)
  | .boolean value mark => .boolean value (f mark)
  | .nil mark => .nil (f mark)
  | .tuple elements mark => .tuple (Expr.mapList f elements) (f mark)
  | .array elements mark => .array (Expr.mapList f elements) (f mark)
  | .dictionary entries mark => .dictionary (Entry.mapList f entries) (f mark)
  | .variable name mark => .variable name (f mark)
  | .path segments mark => .path segments (f mark)
  | .grouping inner mark => .grouping (inner.map f) (f mark)
  | .closureLine params body mark => .closureLine params (body.map f) (f mark)
  | .closureBlock params body mark => .closureBlock params (Stmt.mapList f body) (f mark)
  | .ifLine condition thenDo mark => .ifLine (condition.map f) (thenDo.map f) (f mark)
  | .ifLineElse condition thenDo elseDo mark =>
    .ifLineElse (condition.map f) (thenDo.map f) (elseDo.map f) (f mark)
  | .ifBlock condition thenDo mark => .ifBlock (condition.map f) (Stmt.mapList f thenDo) (f mark)
  | .ifBlockElse condition thenDo elseDo mark =>
    .ifBlockElse (condition.map f) (Stmt.mapList f thenDo) (Stmt.mapList f elseDo) (f mark)
  | .unary op operand mark => .unary op (operand.map f) (f mark)
  | .binary left op right mark => .binary (left.map f) op (right.map f) (f mark)
  | .index target index mark => .index (target.map f) (index.map f) (f mark)
  | .access target member mark => .access (target.map f) member (f mark)
  | .call target args mark => .call (target.map f) (Expr.mapList f args) (f mark)

def Expr.mapList (f : σ → τ) : List (Expr σ) → List (Expr τ)
  | [] => []
  | first :: rest => first.map f :: Expr.mapList f rest

def Stmt.map (f : σ → τ) : Stmt σ → Stmt τ
  | .use path mark => .use path (f mark)
  | .classBare name body mark => .classBare name (Stmt.mapList f body) (f mark)
  | .classFields name fields body mark =>
    .classFields name (Param.mapList f fields) (Stmt.mapList f body) (f mark)
  | .methodValue shared name params value mark =>
    .methodValue shared name (Param.mapList f params) (value.map f) (f mark)
  | .methodBlock shared name params body mark =>
    .methodBlock shared name (Param.mapList f params) (Stmt.mapList f body) (f mark)
  | .forLoop bindings source body mark =>
    .forLoop bindings (source.map f) (Stmt.mapList f body) (f mark)
  | .whileLoop condition body mark => .whileLoop (condition.map f) (Stmt.mapList f body) (f mark)
  | .breakLoop mark => .breakLoop (f mark)
  | .continueLoop mark => .continueLoop (f mark)
  | .returnNothing mark => .returnNothing (f mark)
  | .returnValue value mark => .returnValue (value.map f) (f mark)
  | .assign target op value mark => .assign (target.map f) op (value.map f) (f mark)
  | .expression value mark => .expression (value.map f) (f mark)

def Stmt.mapList (f : σ → τ) : List (Stmt σ) → List (Stmt τ)
  | [] => []
  | first :: rest => first.map f :: Stmt.mapList f rest

def Param.map (f : σ → τ) : Param σ → Param τ
  | .plain name mark => .plain name (f mark)
  | .defaulted name value mark => .defaulted name (value.map f) (f mark)

def Param.mapList (f : σ → τ) : List (Param σ) → List (Param τ)
  | [] => []
  | first :: rest => first.map f :: Param.mapList f rest

def Entry.map (f : σ → τ) : Entry σ → Entry τ
  | .mk key value mark => .mk key (value.map f) (f mark)

def Entry.mapList (f : σ → τ) : List (Entry σ) → List (Entry τ)
  | [] => []
  | first :: rest => first.map f :: Entry.mapList f rest

def Target.map (f : σ → τ) : Target σ → Target τ
  | .variable name mark => .variable name (f mark)
  | .access target member mark => .access (target.map f) member (f mark)
  | .index target index mark => .index (target.map f) (index.map f) (f mark)
  | .names names mark => .names names (f mark)

end

def Program.map (f : σ → τ) (program : Program σ) : Program τ :=
  ⟨Stmt.mapList f program.body, f program.mark⟩

def Program.shape (program : Program σ) : Program Unit :=
  program.map fun _ => ()

end Marks

end Parlance
