import Parlance.Syntax

/-!
Contract: trees compared by shape.

Two trees are the same when they differ at most in their marks. Owns: the comparison, node by node.
-/

namespace Parlance

section Comparison

variable {σ τ : Type}

mutual

def Expr.same : Expr σ → Expr τ → Bool
  | .number literal _, .number literal' _ => literal == literal'
  | .string value quote _, .string value' quote' _ => value == value' && quote == quote'
  | .boolean value _, .boolean value' _ => value == value'
  | .nil _, .nil _ => true
  | .tuple elements _, .tuple elements' _ => Expr.sameList elements elements'
  | .array elements _, .array elements' _ => Expr.sameList elements elements'
  | .dictionary entries _, .dictionary entries' _ => Entry.sameList entries entries'
  | .variable name _, .variable name' _ => name == name'
  | .path segments _, .path segments' _ => segments == segments'
  | .grouping inner _, .grouping inner' _ => Expr.same inner inner'
  | .closureLine params body _, .closureLine params' body' _ =>
    params == params' && Stmt.same body body'
  | .closureBlock params body _, .closureBlock params' body' _ =>
    params == params' && Stmt.sameList body body'
  | .ifLine condition thenDo _, .ifLine condition' thenDo' _ =>
    Expr.same condition condition' && Stmt.same thenDo thenDo'
  | .ifLineElse condition thenDo elseDo _, .ifLineElse condition' thenDo' elseDo' _ =>
    Expr.same condition condition' && Stmt.same thenDo thenDo' && Stmt.same elseDo elseDo'
  | .ifBlock condition thenDo _, .ifBlock condition' thenDo' _ =>
    Expr.same condition condition' && Stmt.sameList thenDo thenDo'
  | .ifBlockElse condition thenDo elseDo _, .ifBlockElse condition' thenDo' elseDo' _ =>
    Expr.same condition condition' && Stmt.sameList thenDo thenDo' &&
      Stmt.sameList elseDo elseDo'
  | .unary op operand _, .unary op' operand' _ => op == op' && Expr.same operand operand'
  | .binary left op right _, .binary left' op' right' _ =>
    Expr.same left left' && op == op' && Expr.same right right'
  | .index target index _, .index target' index' _ =>
    Expr.same target target' && Expr.same index index'
  | .access target member _, .access target' member' _ =>
    Expr.same target target' && member == member'
  | .call target args _, .call target' args' _ =>
    Expr.same target target' && Expr.sameList args args'
  | _, _ => false

def Expr.sameList : List (Expr σ) → List (Expr τ) → Bool
  | [], [] => true
  | first :: rest, first' :: rest' => Expr.same first first' && Expr.sameList rest rest'
  | _, _ => false

def Stmt.same : Stmt σ → Stmt τ → Bool
  | .use path _, .use path' _ => path == path'
  | .classBare name body _, .classBare name' body' _ => name == name' && Stmt.sameList body body'
  | .classFields name fields body _, .classFields name' fields' body' _ =>
    name == name' && Param.sameList fields fields' && Stmt.sameList body body'
  | .methodValue shared name params value _, .methodValue shared' name' params' value' _ =>
    shared == shared' && name == name' && Param.sameList params params' &&
      Expr.same value value'
  | .methodBlock shared name params body _, .methodBlock shared' name' params' body' _ =>
    shared == shared' && name == name' && Param.sameList params params' &&
      Stmt.sameList body body'
  | .forLoop bindings source body _, .forLoop bindings' source' body' _ =>
    bindings == bindings' && Expr.same source source' && Stmt.sameList body body'
  | .whileLoop condition body _, .whileLoop condition' body' _ =>
    Expr.same condition condition' && Stmt.sameList body body'
  | .breakLoop _, .breakLoop _ => true
  | .continueLoop _, .continueLoop _ => true
  | .returnNothing _, .returnNothing _ => true
  | .returnValue value _, .returnValue value' _ => Expr.same value value'
  | .assign target op value _, .assign target' op' value' _ =>
    Target.same target target' && op == op' && Expr.same value value'
  | .expression value _, .expression value' _ => Expr.same value value'
  | _, _ => false

def Stmt.sameList : List (Stmt σ) → List (Stmt τ) → Bool
  | [], [] => true
  | first :: rest, first' :: rest' => Stmt.same first first' && Stmt.sameList rest rest'
  | _, _ => false

def Param.same : Param σ → Param τ → Bool
  | .plain name _, .plain name' _ => name == name'
  | .defaulted name value _, .defaulted name' value' _ => name == name' && Expr.same value value'
  | _, _ => false

def Param.sameList : List (Param σ) → List (Param τ) → Bool
  | [], [] => true
  | first :: rest, first' :: rest' => Param.same first first' && Param.sameList rest rest'
  | _, _ => false

def Entry.same : Entry σ → Entry τ → Bool
  | .mk key value _, .mk key' value' _ => key == key' && Expr.same value value'

def Entry.sameList : List (Entry σ) → List (Entry τ) → Bool
  | [], [] => true
  | first :: rest, first' :: rest' => Entry.same first first' && Entry.sameList rest rest'
  | _, _ => false

def Target.same : Target σ → Target τ → Bool
  | .variable name _, .variable name' _ => name == name'
  | .access target member _, .access target' member' _ =>
    Expr.same target target' && member == member'
  | .index target index _, .index target' index' _ =>
    Expr.same target target' && Expr.same index index'
  | .names names _, .names names' _ => names == names'
  | _, _ => false

end

def Program.same (left : Program σ) (right : Program τ) : Bool :=
  Stmt.sameList left.body right.body

end Comparison

end Parlance
