import Parlance.Grammar.Short
import Parlance.Syntax.Same

/-!
Contract: trees without their marks.

Owns: the shape of every kind of tree, and that two trees are the same exactly if their shapes are
equal. A shape is a tree whose marks carry nothing, so equality of shapes is plain equality.
-/

namespace Parlance

variable {σ τ : Type}

/-- An expression without its marks. -/
def Expr.shape (expr : Expr σ) : Expr Unit :=
  expr.map fun _ => ()

def Stmt.shape (stmt : Stmt σ) : Stmt Unit :=
  stmt.map fun _ => ()

def Param.shape (param : Param σ) : Param Unit :=
  param.map fun _ => ()

def Entry.shape (entry : Entry σ) : Entry Unit :=
  entry.map fun _ => ()

def Target.shape (target : Target σ) : Target Unit :=
  target.map fun _ => ()

/-! ## Changing marks in lists -/

theorem Expr.mapList_eq_map (f : σ → τ) (exprs : List (Expr σ)) :
    Expr.mapList f exprs = exprs.map (Expr.map f) := by
  induction exprs with
  | nil => rfl
  | cons first rest ih =>
    exact congrArg (first.map f :: ·) ih

theorem Stmt.mapList_eq_map (f : σ → τ) (stmts : List (Stmt σ)) :
    Stmt.mapList f stmts = stmts.map (Stmt.map f) := by
  induction stmts with
  | nil => rfl
  | cons first rest ih =>
    exact congrArg (first.map f :: ·) ih

theorem Param.mapList_eq_map (f : σ → τ) (params : List (Param σ)) :
    Param.mapList f params = params.map (Param.map f) := by
  induction params with
  | nil => rfl
  | cons first rest ih =>
    exact congrArg (first.map f :: ·) ih

theorem Entry.mapList_eq_map (f : σ → τ) (entries : List (Entry σ)) :
    Entry.mapList f entries = entries.map (Entry.map f) := by
  induction entries with
  | nil => rfl
  | cons first rest ih =>
    exact congrArg (first.map f :: ·) ih

@[simp] theorem Program.shape_body (program : Program σ) :
    program.shape.body = program.body.map Stmt.shape :=
  Stmt.mapList_eq_map _ program.body

/-! ## Shapes of trees with lists -/

@[simp] theorem Expr.shape_tuple (elements : List (Expr σ)) (mark : σ) :
    (Expr.tuple elements mark).shape = .tuple (elements.map Expr.shape) () :=
  congrArg (Expr.tuple · ()) (Expr.mapList_eq_map _ elements)

@[simp] theorem Expr.shape_array (elements : List (Expr σ)) (mark : σ) :
    (Expr.array elements mark).shape = .array (elements.map Expr.shape) () :=
  congrArg (Expr.array · ()) (Expr.mapList_eq_map _ elements)

@[simp] theorem Expr.shape_dictionary (entries : List (Entry σ)) (mark : σ) :
    (Expr.dictionary entries mark).shape = .dictionary (entries.map Entry.shape) () :=
  congrArg (Expr.dictionary · ()) (Entry.mapList_eq_map _ entries)

@[simp] theorem Expr.shape_closureBlock (params : List String) (body : List (Stmt σ)) (mark : σ) :
    (Expr.closureBlock params body mark).shape =
      .closureBlock params (body.map Stmt.shape) () :=
  congrArg (Expr.closureBlock params · ()) (Stmt.mapList_eq_map _ body)

@[simp] theorem Expr.shape_ifBlock (condition : Expr σ) (thenDo : List (Stmt σ)) (mark : σ) :
    (Expr.ifBlock condition thenDo mark).shape =
      .ifBlock condition.shape (thenDo.map Stmt.shape) () :=
  congrArg (Expr.ifBlock condition.shape · ()) (Stmt.mapList_eq_map _ thenDo)

@[simp] theorem Expr.shape_ifBlockElse (condition : Expr σ) (thenDo elseDo : List (Stmt σ))
    (mark : σ) :
    (Expr.ifBlockElse condition thenDo elseDo mark).shape =
      .ifBlockElse condition.shape (thenDo.map Stmt.shape) (elseDo.map Stmt.shape) () := by
  change Expr.ifBlockElse _ (Stmt.mapList _ thenDo) (Stmt.mapList _ elseDo) () = _
  rw [Stmt.mapList_eq_map, Stmt.mapList_eq_map]
  rfl

@[simp] theorem Expr.shape_call (callee : Expr σ) (args : List (Expr σ)) (mark : σ) :
    (Expr.call callee args mark).shape = .call callee.shape (args.map Expr.shape) () :=
  congrArg (Expr.call callee.shape · ()) (Expr.mapList_eq_map _ args)

@[simp] theorem Stmt.shape_classBare (name : String) (body : List (Stmt σ)) (mark : σ) :
    (Stmt.classBare name body mark).shape = .classBare name (body.map Stmt.shape) () :=
  congrArg (Stmt.classBare name · ()) (Stmt.mapList_eq_map _ body)

@[simp] theorem Stmt.shape_classFields (name : String) (fields : List (Param σ))
    (body : List (Stmt σ)) (mark : σ) :
    (Stmt.classFields name fields body mark).shape =
      .classFields name (fields.map Param.shape) (body.map Stmt.shape) () := by
  change Stmt.classFields name (Param.mapList _ fields) (Stmt.mapList _ body) () = _
  rw [Param.mapList_eq_map, Stmt.mapList_eq_map]
  rfl

@[simp] theorem Stmt.shape_methodValue (shared : Bool) (name : String) (params : List (Param σ))
    (value : Expr σ) (mark : σ) :
    (Stmt.methodValue shared name params value mark).shape =
      .methodValue shared name (params.map Param.shape) value.shape () :=
  congrArg (Stmt.methodValue shared name · value.shape ()) (Param.mapList_eq_map _ params)

@[simp] theorem Stmt.shape_methodBlock (shared : Bool) (name : String) (params : List (Param σ))
    (body : List (Stmt σ)) (mark : σ) :
    (Stmt.methodBlock shared name params body mark).shape =
      .methodBlock shared name (params.map Param.shape) (body.map Stmt.shape) () := by
  change Stmt.methodBlock shared name (Param.mapList _ params) (Stmt.mapList _ body) () = _
  rw [Param.mapList_eq_map, Stmt.mapList_eq_map]
  rfl

@[simp] theorem Stmt.shape_forLoop (bindings : List String) (source : Expr σ) (body : List (Stmt σ))
    (mark : σ) :
    (Stmt.forLoop bindings source body mark).shape =
      .forLoop bindings source.shape (body.map Stmt.shape) () :=
  congrArg (Stmt.forLoop bindings source.shape · ()) (Stmt.mapList_eq_map _ body)

@[simp] theorem Stmt.shape_whileLoop (condition : Expr σ) (body : List (Stmt σ)) (mark : σ) :
    (Stmt.whileLoop condition body mark).shape =
      .whileLoop condition.shape (body.map Stmt.shape) () :=
  congrArg (Stmt.whileLoop condition.shape · ()) (Stmt.mapList_eq_map _ body)

/-! ## Assignment targets -/

theorem Expr.variableNames?_shape (exprs : List (Expr σ)) :
    Expr.variableNames? (exprs.map Expr.shape) = Expr.variableNames? exprs := by
  induction exprs with
  | nil => rfl
  | cons first rest ih =>
    cases first <;>
      simp [Expr.shape, Expr.map, Expr.variableNames?, ← ih]

/-- Whether an expression can be assigned, and as what, depends on its shape alone. -/
theorem Expr.toTarget?_shape (expr : Expr σ) :
    expr.shape.toTarget? = expr.toTarget?.map Target.shape := by
  cases expr with
  | tuple elements mark =>
    cases elements with
    | nil => rfl
    | cons first rest =>
      have names := Expr.variableNames?_shape (first :: rest)
      simp only [Expr.shape, Expr.map, Expr.mapList_eq_map, List.map_cons, Expr.toTarget?]
        at names ⊢
      change Option.map _ (Expr.variableNames? (first.shape :: rest.map Expr.shape)) = _
      rw [show first.shape = Expr.map (fun _ => ()) first from rfl, names, Option.map_map]
      rfl
  | _ => rfl

/-! ## Comparison -/

mutual

theorem Expr.same_iff_map_eq (left : Expr σ) (right : Expr τ) :
    Expr.same left right = true ↔ left.map (fun _ => ()) = right.map (fun _ => ()) := by
  cases left <;> cases right <;>
    simp [Expr.same, Expr.map, Expr.same_iff_map_eq, Expr.sameList_iff_mapList_eq,
      Entry.sameList_iff_mapList_eq, Stmt.same_iff_map_eq, Stmt.sameList_iff_mapList_eq, and_assoc]

theorem Expr.sameList_iff_mapList_eq (left : List (Expr σ)) (right : List (Expr τ)) :
    Expr.sameList left right = true ↔
      Expr.mapList (fun _ => ()) left = Expr.mapList (fun _ => ()) right := by
  cases left <;> cases right <;>
    simp [Expr.sameList, Expr.mapList, Expr.same_iff_map_eq, Expr.sameList_iff_mapList_eq]

theorem Stmt.same_iff_map_eq (left : Stmt σ) (right : Stmt τ) :
    Stmt.same left right = true ↔ left.map (fun _ => ()) = right.map (fun _ => ()) := by
  cases left <;> cases right <;>
    simp [Stmt.same, Stmt.map, Expr.same_iff_map_eq, Param.sameList_iff_mapList_eq,
      Stmt.sameList_iff_mapList_eq, Target.same_iff_map_eq, and_assoc]

theorem Stmt.sameList_iff_mapList_eq (left : List (Stmt σ)) (right : List (Stmt τ)) :
    Stmt.sameList left right = true ↔
      Stmt.mapList (fun _ => ()) left = Stmt.mapList (fun _ => ()) right := by
  cases left <;> cases right <;>
    simp [Stmt.sameList, Stmt.mapList, Stmt.same_iff_map_eq, Stmt.sameList_iff_mapList_eq]

theorem Param.same_iff_map_eq (left : Param σ) (right : Param τ) :
    Param.same left right = true ↔ left.map (fun _ => ()) = right.map (fun _ => ()) := by
  cases left <;> cases right <;> simp [Param.same, Param.map, Expr.same_iff_map_eq]

theorem Param.sameList_iff_mapList_eq (left : List (Param σ)) (right : List (Param τ)) :
    Param.sameList left right = true ↔
      Param.mapList (fun _ => ()) left = Param.mapList (fun _ => ()) right := by
  cases left <;> cases right <;>
    simp [Param.sameList, Param.mapList, Param.same_iff_map_eq, Param.sameList_iff_mapList_eq]

theorem Entry.same_iff_map_eq (left : Entry σ) (right : Entry τ) :
    Entry.same left right = true ↔ left.map (fun _ => ()) = right.map (fun _ => ()) := by
  cases left
  cases right
  simp [Entry.same, Entry.map, Expr.same_iff_map_eq]

theorem Entry.sameList_iff_mapList_eq (left : List (Entry σ)) (right : List (Entry τ)) :
    Entry.sameList left right = true ↔
      Entry.mapList (fun _ => ()) left = Entry.mapList (fun _ => ()) right := by
  cases left <;> cases right <;>
    simp [Entry.sameList, Entry.mapList, Entry.same_iff_map_eq, Entry.sameList_iff_mapList_eq]

theorem Target.same_iff_map_eq (left : Target σ) (right : Target τ) :
    Target.same left right = true ↔ left.map (fun _ => ()) = right.map (fun _ => ()) := by
  cases left <;> cases right <;> simp [Target.same, Target.map, Expr.same_iff_map_eq]

end

/-- Programs are the same exactly if their statements have equal shapes. -/
theorem Program.same_iff_shape_eq (left : Program σ) (right : Program τ) :
    left.same right = true ↔ left.body.map Stmt.shape = right.body.map Stmt.shape := by
  rw [Program.same, Stmt.sameList_iff_mapList_eq, Stmt.mapList_eq_map, Stmt.mapList_eq_map]
  rfl

end Parlance
