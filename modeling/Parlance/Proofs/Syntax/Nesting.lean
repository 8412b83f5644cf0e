import Parlance.Proofs.Syntax.Shape

/-!
Contract: how deep the levels of a tree are nested.

The body of a program, the body of every block and every full expression open one level each. A full
expression is a statement of its own, a condition, what a loop runs over, a target or a value of an
assignment, a value that is returned, an argument, an element of a list, the value of an entry, a
default, an index, what stands in parentheses, and the value of a method. Operands of operators and
what members, calls and indexes are applied to open none. Owns: the number of levels in a tree, and
that it does not depend on the marks.
-/

namespace Parlance

variable {σ τ : Type}

mutual

/-- The levels that are nested in an expression, without its own. -/
def Expr.levels : Expr σ → Nat
  | .number .. | .string .. | .boolean .. | .nil .. | .variable .. | .path .. => 0
  | .tuple elements _ | .array elements _ => Expr.fullLevels elements
  | .dictionary entries _ => Entry.allLevels entries
  | .grouping inner _ => inner.levels + 1
  | .closureLine _ body _ => body.levels
  | .closureBlock _ body _ => Stmt.allLevels body + 1
  | .ifLine condition thenDo _ => max (condition.levels + 1) thenDo.levels
  | .ifLineElse condition thenDo elseDo _ =>
    max (condition.levels + 1) (max thenDo.levels elseDo.levels)
  | .ifBlock condition thenDo _ => max (condition.levels + 1) (Stmt.allLevels thenDo + 1)
  | .ifBlockElse condition thenDo elseDo _ =>
    max (condition.levels + 1) (max (Stmt.allLevels thenDo + 1) (Stmt.allLevels elseDo + 1))
  | .unary _ operand _ => operand.levels
  | .binary left _ right _ => max left.levels right.levels
  | .index target place _ => max target.levels (place.levels + 1)
  | .access target _ _ => target.levels
  | .call target args _ => max target.levels (Expr.fullLevels args)

/-- The levels of full expressions, with their own. -/
def Expr.fullLevels : List (Expr σ) → Nat
  | [] => 0
  | first :: rest => max (first.levels + 1) (Expr.fullLevels rest)

def Stmt.levels : Stmt σ → Nat
  | .use .. | .breakLoop .. | .continueLoop .. | .returnNothing .. => 0
  | .classBare _ body _ => Stmt.allLevels body + 1
  | .classFields _ fields body _ => max (Param.allLevels fields) (Stmt.allLevels body + 1)
  | .methodValue _ _ params value _ => max (Param.allLevels params) (value.levels + 1)
  | .methodBlock _ _ params body _ => max (Param.allLevels params) (Stmt.allLevels body + 1)
  | .forLoop _ source body _ => max (source.levels + 1) (Stmt.allLevels body + 1)
  | .whileLoop condition body _ => max (condition.levels + 1) (Stmt.allLevels body + 1)
  | .returnValue value _ => value.levels + 1
  | .assign target _ value _ => max (target.levels + 1) (value.levels + 1)
  | .expression value _ => value.levels + 1

def Stmt.allLevels : List (Stmt σ) → Nat
  | [] => 0
  | first :: rest => max first.levels (Stmt.allLevels rest)

def Param.levels : Param σ → Nat
  | .plain .. => 0
  | .defaulted _ value _ => value.levels + 1

def Param.allLevels : List (Param σ) → Nat
  | [] => 0
  | first :: rest => max first.levels (Param.allLevels rest)

def Entry.levels : Entry σ → Nat
  | .mk _ value _ => value.levels + 1

def Entry.allLevels : List (Entry σ) → Nat
  | [] => 0
  | first :: rest => max first.levels (Entry.allLevels rest)

/-- The levels that are nested in an assignment target, without its own. -/
def Target.levels : Target σ → Nat
  | .variable .. | .names .. => 0
  | .access target _ _ => target.levels
  | .index target place _ => max target.levels (place.levels + 1)

end

/-- The levels of a program. Its body is one, even if it is empty. -/
def Program.nesting (program : Program σ) : Nat :=
  Stmt.allLevels program.body + 1

/-! ## Marks -/

mutual

theorem Expr.levels_map (f : σ → τ) (expr : Expr σ) : (expr.map f).levels = expr.levels := by
  cases expr <;> simp only [Expr.map, Expr.levels, Expr.levels_map, Expr.fullLevels_map,
    Stmt.levels_map, Stmt.allLevels_map, Entry.allLevels_map]

theorem Expr.fullLevels_map (f : σ → τ) (exprs : List (Expr σ)) :
    Expr.fullLevels (Expr.mapList f exprs) = Expr.fullLevels exprs := by
  cases exprs <;> simp only [Expr.mapList, Expr.fullLevels, Expr.levels_map, Expr.fullLevels_map]

theorem Stmt.levels_map (f : σ → τ) (stmt : Stmt σ) : (stmt.map f).levels = stmt.levels := by
  cases stmt <;> simp only [Stmt.map, Stmt.levels, Expr.levels_map, Stmt.allLevels_map,
    Param.allLevels_map, Target.levels_map]

theorem Stmt.allLevels_map (f : σ → τ) (stmts : List (Stmt σ)) :
    Stmt.allLevels (Stmt.mapList f stmts) = Stmt.allLevels stmts := by
  cases stmts <;> simp only [Stmt.mapList, Stmt.allLevels, Stmt.levels_map, Stmt.allLevels_map]

theorem Param.levels_map (f : σ → τ) (param : Param σ) : (param.map f).levels = param.levels := by
  cases param <;> simp only [Param.map, Param.levels, Expr.levels_map]

theorem Param.allLevels_map (f : σ → τ) (params : List (Param σ)) :
    Param.allLevels (Param.mapList f params) = Param.allLevels params := by
  cases params <;> simp only [Param.mapList, Param.allLevels, Param.levels_map, Param.allLevels_map]

theorem Entry.levels_map (f : σ → τ) (entry : Entry σ) : (entry.map f).levels = entry.levels := by
  cases entry
  simp only [Entry.map, Entry.levels, Expr.levels_map]

theorem Entry.allLevels_map (f : σ → τ) (entries : List (Entry σ)) :
    Entry.allLevels (Entry.mapList f entries) = Entry.allLevels entries := by
  cases entries <;> simp only [Entry.mapList, Entry.allLevels, Entry.levels_map,
    Entry.allLevels_map]

theorem Target.levels_map (f : σ → τ) (target : Target σ) :
    (target.map f).levels = target.levels := by
  cases target <;> simp only [Target.map, Target.levels, Expr.levels_map]

end

theorem Program.nesting_eq_shape (program : Program σ) :
    program.nesting = Stmt.allLevels (program.body.map Stmt.shape) + 1 := by
  rw [Program.nesting, ← Stmt.allLevels_map fun _ => (), Stmt.mapList_eq_map]
  rfl

end Parlance
