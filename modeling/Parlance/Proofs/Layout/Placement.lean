import Parlance.Layout.Program
import Parlance.Proofs.Syntax.Shape

/-!
Contract: assignments to several names, and where they stand.

A layout writes the names of such an assignment without parentheses. They are read back only if they
are at least two, which a comma shows, and only where the statement fills a line, since elsewhere a
comma divides list items. Owns: the number of assignments in a tree that are not so placed, and that
neither this number nor the layout depends on the marks of a tree.

A statement fills a line if it is a line of a block, or a branch of a one-line `if` that fills one.
-/

namespace Parlance

variable {σ τ : Type}

mutual

/-- The misplaced assignments to several names in an expression, which may fill a line. -/
def Expr.misplaced (line : Bool) : Expr σ → Nat
  | .number .. | .string .. | .boolean .. | .nil .. | .variable .. | .path .. => 0
  | .tuple elements _ | .array elements _ => Expr.misplacedAll elements
  | .dictionary entries _ => Entry.misplacedAll entries
  | .grouping inner _ => inner.misplaced false
  | .closureLine _ body _ => body.misplaced false
  | .closureBlock _ body _ => Stmt.misplacedAll body
  | .ifLine condition thenDo _ => condition.misplaced false + thenDo.misplaced line
  | .ifLineElse condition thenDo elseDo _ =>
    condition.misplaced false + thenDo.misplaced line + elseDo.misplaced line
  | .ifBlock condition thenDo _ => condition.misplaced false + Stmt.misplacedAll thenDo
  | .ifBlockElse condition thenDo elseDo _ =>
    condition.misplaced false + Stmt.misplacedAll thenDo + Stmt.misplacedAll elseDo
  | .unary _ operand _ => operand.misplaced false
  | .binary left _ right _ => left.misplaced false + right.misplaced false
  | .index target place _ => target.misplaced false + place.misplaced false
  | .access target _ _ => target.misplaced false
  | .call target args _ => target.misplaced false + Expr.misplacedAll args

def Expr.misplacedAll : List (Expr σ) → Nat
  | [] => 0
  | first :: rest => first.misplaced false + Expr.misplacedAll rest

/-- The misplaced assignments to several names in a statement, which may fill a line. -/
def Stmt.misplaced (line : Bool) : Stmt σ → Nat
  | .use .. | .breakLoop .. | .continueLoop .. | .returnNothing .. => 0
  | .classBare _ body _ => Stmt.misplacedAll body
  | .classFields _ fields body _ => Param.misplacedAll fields + Stmt.misplacedAll body
  | .methodValue _ _ params value _ => Param.misplacedAll params + value.misplaced false
  | .methodBlock _ _ params body _ => Param.misplacedAll params + Stmt.misplacedAll body
  | .forLoop _ source body _ => source.misplaced false + Stmt.misplacedAll body
  | .whileLoop condition body _ => condition.misplaced false + Stmt.misplacedAll body
  | .returnValue value _ => value.misplaced false
  | .assign target _ value _ => target.misplaced line + value.misplaced false
  | .expression value _ => value.misplaced line

def Stmt.misplacedAll : List (Stmt σ) → Nat
  | [] => 0
  | first :: rest => first.misplaced true + Stmt.misplacedAll rest

def Param.misplaced : Param σ → Nat
  | .plain .. => 0
  | .defaulted _ value _ => value.misplaced false

def Param.misplacedAll : List (Param σ) → Nat
  | [] => 0
  | first :: rest => first.misplaced + Param.misplacedAll rest

def Entry.misplaced : Entry σ → Nat
  | .mk _ value _ => value.misplaced false

def Entry.misplacedAll : List (Entry σ) → Nat
  | [] => 0
  | first :: rest => first.misplaced + Entry.misplacedAll rest

/-- The misplaced assignments in a target, with the target itself. -/
def Target.misplaced (line : Bool) : Target σ → Nat
  | .variable .. => 0
  | .access target _ _ => target.misplaced false
  | .index target place _ => target.misplaced false + place.misplaced false
  | .names names _ => if line && decide (2 ≤ names.length) then 0 else 1

end

/-- The misplaced assignments to several names in a program. -/
def Program.misplaced (program : Program σ) : Nat :=
  Stmt.misplacedAll program.body

/-! ## Marks -/

mutual

theorem Expr.misplaced_map (f : σ → τ) (line : Bool) (expr : Expr σ) :
    (expr.map f).misplaced line = expr.misplaced line := by
  cases expr <;> simp only [Expr.map, Expr.misplaced, Expr.misplaced_map, Expr.misplacedAll_map,
    Stmt.misplaced_map, Stmt.misplacedAll_map, Entry.misplacedAll_map]

theorem Expr.misplacedAll_map (f : σ → τ) (exprs : List (Expr σ)) :
    Expr.misplacedAll (Expr.mapList f exprs) = Expr.misplacedAll exprs := by
  cases exprs <;> simp only [Expr.mapList, Expr.misplacedAll, Expr.misplaced_map,
    Expr.misplacedAll_map]

theorem Stmt.misplaced_map (f : σ → τ) (line : Bool) (stmt : Stmt σ) :
    (stmt.map f).misplaced line = stmt.misplaced line := by
  cases stmt <;> simp only [Stmt.map, Stmt.misplaced, Expr.misplaced_map, Stmt.misplacedAll_map,
    Param.misplacedAll_map, Target.misplaced_map]

theorem Stmt.misplacedAll_map (f : σ → τ) (stmts : List (Stmt σ)) :
    Stmt.misplacedAll (Stmt.mapList f stmts) = Stmt.misplacedAll stmts := by
  cases stmts <;> simp only [Stmt.mapList, Stmt.misplacedAll, Stmt.misplaced_map,
    Stmt.misplacedAll_map]

theorem Param.misplaced_map (f : σ → τ) (param : Param σ) :
    (param.map f).misplaced = param.misplaced := by
  cases param <;> simp only [Param.map, Param.misplaced, Expr.misplaced_map]

theorem Param.misplacedAll_map (f : σ → τ) (params : List (Param σ)) :
    Param.misplacedAll (Param.mapList f params) = Param.misplacedAll params := by
  cases params <;> simp only [Param.mapList, Param.misplacedAll, Param.misplaced_map,
    Param.misplacedAll_map]

theorem Entry.misplaced_map (f : σ → τ) (entry : Entry σ) :
    (entry.map f).misplaced = entry.misplaced := by
  cases entry; simp only [Entry.map, Entry.misplaced, Expr.misplaced_map]

theorem Entry.misplacedAll_map (f : σ → τ) (entries : List (Entry σ)) :
    Entry.misplacedAll (Entry.mapList f entries) = Entry.misplacedAll entries := by
  cases entries <;> simp only [Entry.mapList, Entry.misplacedAll, Entry.misplaced_map,
    Entry.misplacedAll_map]

theorem Target.misplaced_map (f : σ → τ) (line : Bool) (target : Target σ) :
    (target.map f).misplaced line = target.misplaced line := by
  cases target <;> simp only [Target.map, Target.misplaced, Expr.misplaced_map]

end

mutual

theorem Expr.layout_map (f : σ → τ) (level : Nat) (expr : Expr σ) :
    (expr.map f).layout level = expr.layout level := by
  cases expr <;> simp only [Expr.map, Expr.layout, Expr.layout_map, Expr.layouts_map,
    Stmt.layout_map, Stmt.layouts_map, Entry.layouts_map]

theorem Expr.layouts_map (f : σ → τ) (level : Nat) (exprs : List (Expr σ)) :
    Expr.layouts level (Expr.mapList f exprs) = Expr.layouts level exprs := by
  cases exprs <;> simp only [Expr.mapList, Expr.layouts, Expr.layout_map, Expr.layouts_map]

theorem Stmt.layout_map (f : σ → τ) (level : Nat) (stmt : Stmt σ) :
    (stmt.map f).layout level = stmt.layout level := by
  cases stmt <;> simp only [Stmt.map, Stmt.layout, Expr.layout_map, Stmt.layouts_map,
    Param.layouts_map, Target.layout_map]

theorem Stmt.layouts_map (f : σ → τ) (level : Nat) (stmts : List (Stmt σ)) :
    Stmt.layouts level (Stmt.mapList f stmts) = Stmt.layouts level stmts := by
  cases stmts <;> simp only [Stmt.mapList, Stmt.layouts, Stmt.layout_map, Stmt.layouts_map]

theorem Param.layout_map (f : σ → τ) (level : Nat) (param : Param σ) :
    (param.map f).layout level = param.layout level := by
  cases param <;> simp only [Param.map, Param.layout, Expr.layout_map]

theorem Param.layouts_map (f : σ → τ) (level : Nat) (params : List (Param σ)) :
    Param.layouts level (Param.mapList f params) = Param.layouts level params := by
  cases params <;> simp only [Param.mapList, Param.layouts, Param.layout_map, Param.layouts_map]

theorem Entry.layout_map (f : σ → τ) (level : Nat) (entry : Entry σ) :
    (entry.map f).layout level = entry.layout level := by
  cases entry; simp only [Entry.map, Entry.layout, Expr.layout_map]

theorem Entry.layouts_map (f : σ → τ) (level : Nat) (entries : List (Entry σ)) :
    Entry.layouts level (Entry.mapList f entries) = Entry.layouts level entries := by
  cases entries <;> simp only [Entry.mapList, Entry.layouts, Entry.layout_map, Entry.layouts_map]

theorem Target.layout_map (f : σ → τ) (level : Nat) (target : Target σ) :
    (target.map f).layout level = target.layout level := by
  cases target <;> simp only [Target.map, Target.layout, Expr.layout_map]

end

/-! ## Lists -/

theorem Expr.layouts_eq_map (level : Nat) (exprs : List (Expr σ)) :
    Expr.layouts level exprs = exprs.map (Expr.layout level) := by
  induction exprs with
  | nil => rfl
  | cons first rest ih => simp [Expr.layouts, ih]

theorem Stmt.layouts_eq_map (level : Nat) (stmts : List (Stmt σ)) :
    Stmt.layouts level stmts = stmts.map (Stmt.layout level) := by
  induction stmts with
  | nil => rfl
  | cons first rest ih => simp [Stmt.layouts, ih]

theorem Param.layouts_eq_map (level : Nat) (params : List (Param σ)) :
    Param.layouts level params = params.map (Param.layout level) := by
  induction params with
  | nil => rfl
  | cons first rest ih => simp [Param.layouts, ih]

theorem Entry.layouts_eq_map (level : Nat) (entries : List (Entry σ)) :
    Entry.layouts level entries = entries.map (Entry.layout level) := by
  induction entries with
  | nil => rfl
  | cons first rest ih => simp [Entry.layouts, ih]

/-! ## Programs -/

theorem Stmt.declares_map (f : σ → τ) (stmt : Stmt σ) : (stmt.map f).declares = stmt.declares := by
  cases stmt <;> simp only [Stmt.map, Stmt.declares]

theorem Program.rows_shape (program : Program σ) : program.shape.rows = program.rows := by
  simp only [Program.rows, Program.shape_body, List.map_map]
  refine List.map_congr_left fun stmt _ => ?_
  simp only [Function.comp, Stmt.shape, Stmt.layout_map, Stmt.declares_map]

theorem Program.misplaced_shape (program : Program σ) :
    program.shape.misplaced = program.misplaced :=
  Stmt.misplacedAll_map _ _

end Parlance
