import Parlance.Proofs.Syntax.Shape

/-!
Contract: moving the places that tokens and trees carry.

Owns: changes of places (`Relocation`), what such a change makes of a token, a tree, a failure and
the end of a row of tokens, and the laws by which it passes through the trees that hold lists. A
change leaves all but the spans as it is; so it keeps which expressions can be assigned.
-/

namespace Parlance

/-- A change of places under which the span from one place to another stays a span between them. -/
structure Relocation where
  place : Span → Span
  through : ∀ first last : Span, place (first.through last) = (place first).through (place last)

def Relocation.stay : Relocation :=
  ⟨id, fun _ _ => rfl⟩

/-- Values that hold spans, or none at all. -/
class Relocatable (α : Type) where
  relocate : Relocation → α → α

open Relocatable

section Values

variable {α β : Type} [Relocatable α] [Relocatable β]

instance: Relocatable Unit := ⟨fun _ value => value⟩

instance: Relocatable Bool := ⟨fun _ value => value⟩

instance: Relocatable String := ⟨fun _ value => value⟩

instance: Relocatable BinaryOp := ⟨fun _ value => value⟩

instance: Relocatable Span := ⟨fun change span => change.place span⟩

instance: Relocatable Token := ⟨fun change token => { token with span := change.place token.span }⟩

instance: Relocatable (Expr Span) := ⟨fun change => Expr.map change.place⟩

instance: Relocatable (Stmt Span) := ⟨fun change => Stmt.map change.place⟩

instance: Relocatable (Param Span) := ⟨fun change => Param.map change.place⟩

instance: Relocatable (Entry Span) := ⟨fun change => Entry.map change.place⟩

instance: Relocatable (Target Span) := ⟨fun change => Target.map change.place⟩

instance: Relocatable (List α) := ⟨fun change => List.map (relocate change)⟩

instance: Relocatable (α × β) :=
  ⟨fun change pair => (relocate change pair.1, relocate change pair.2)⟩

/-- A fault that names a token names it at its new place. -/
def Fault.relocate (change : Relocation) : Fault → Fault
  | .unexpected wanted found => .unexpected wanted (Relocatable.relocate change found)
  | fault => fault

theorem Fault.relocate_of_lexical {fault : Fault} (change : Relocation)
    (isLexical : fault.stage = .lexical) :
    fault.relocate change = fault := by
  cases fault with
  | unexpected => cases isLexical
  | _ => rfl

instance: Relocatable Failure :=
  ⟨fun change failure => ⟨failure.fault.relocate change, change.place failure.span⟩⟩

instance: Relocatable (Except Failure α) :=
  ⟨fun change outcome => (outcome.map (relocate change)).mapError (relocate change)⟩

def Ending.relocate (change : Relocation) : Ending → Ending
  | .finished span => .finished (change.place span)
  | .broken failure => .broken (Relocatable.relocate change failure)

variable (change : Relocation)

@[simp] theorem relocate_string (value : String) : relocate change value = value := rfl

@[simp] theorem relocate_names (names : List String) : relocate change names = names :=
  List.map_id names

@[simp] theorem relocate_span (span : Span) : relocate change span = change.place span := rfl

@[simp] theorem relocate_kind (token : Token) : (relocate change token).kind = token.kind := rfl

@[simp] theorem relocate_text (token : Token) : (relocate change token).text = token.text := rfl

@[simp] theorem relocate_tokenSpan (token : Token) :
    (relocate change token).span = change.place token.span := rfl

@[simp] theorem relocate_nil : relocate change ([] : List α) = [] := rfl

@[simp] theorem relocate_cons (first : α) (rest : List α) :
    relocate change (first :: rest) = relocate change first :: relocate change rest := rfl

@[simp] theorem relocate_append (front back : List α) :
    relocate change (front ++ back) = relocate change front ++ relocate change back :=
  List.map_append

@[simp] theorem Expr.mark_relocate (value : Expr Span) :
    (relocate change value).mark = change.place value.mark := by
  cases value <;> rfl

/-! ### Trees -/

theorem Expr.relocate_tuple (elements : List (Expr Span)) (mark : Span) :
    relocate change (Expr.tuple elements mark) =
      .tuple (relocate change elements) (change.place mark) :=
  congrArg (Expr.tuple · (change.place mark)) (Expr.mapList_eq_map _ elements)

theorem Expr.relocate_array (elements : List (Expr Span)) (mark : Span) :
    relocate change (Expr.array elements mark) =
      .array (relocate change elements) (change.place mark) :=
  congrArg (Expr.array · (change.place mark)) (Expr.mapList_eq_map _ elements)

theorem Expr.relocate_dictionary (entries : List (Entry Span)) (mark : Span) :
    relocate change (Expr.dictionary entries mark) =
      .dictionary (relocate change entries) (change.place mark) :=
  congrArg (Expr.dictionary · (change.place mark)) (Entry.mapList_eq_map _ entries)

theorem Expr.relocate_closureBlock (params : List String) (body : List (Stmt Span)) (mark : Span) :
    relocate change (Expr.closureBlock params body mark) =
      .closureBlock params (relocate change body) (change.place mark) :=
  congrArg (Expr.closureBlock params · (change.place mark)) (Stmt.mapList_eq_map _ body)

theorem Expr.relocate_ifBlock (condition : Expr Span) (thenDo : List (Stmt Span)) (mark : Span) :
    relocate change (Expr.ifBlock condition thenDo mark) =
      .ifBlock (relocate change condition) (relocate change thenDo) (change.place mark) :=
  congrArg (Expr.ifBlock (relocate change condition) · (change.place mark))
    (Stmt.mapList_eq_map _ thenDo)

theorem Expr.relocate_ifBlockElse (condition : Expr Span) (thenDo elseDo : List (Stmt Span))
    (mark : Span) :
    relocate change (Expr.ifBlockElse condition thenDo elseDo mark) =
      .ifBlockElse (relocate change condition) (relocate change thenDo) (relocate change elseDo)
        (change.place mark) := by
  have lists : ∀ body : List (Stmt Span), Stmt.mapList change.place body = relocate change body :=
    Stmt.mapList_eq_map _
  rw [← lists, ← lists]
  rfl

theorem Expr.relocate_call (callee : Expr Span) (args : List (Expr Span)) (mark : Span) :
    relocate change (Expr.call callee args mark) =
      .call (relocate change callee) (relocate change args) (change.place mark) :=
  congrArg (Expr.call (relocate change callee) · (change.place mark)) (Expr.mapList_eq_map _ args)

theorem Stmt.relocate_classBare (name : String) (body : List (Stmt Span)) (mark : Span) :
    relocate change (Stmt.classBare name body mark) =
      .classBare name (relocate change body) (change.place mark) :=
  congrArg (Stmt.classBare name · (change.place mark)) (Stmt.mapList_eq_map _ body)

theorem Stmt.relocate_classFields (name : String) (fields : List (Param Span))
    (body : List (Stmt Span)) (mark : Span) :
    relocate change (Stmt.classFields name fields body mark) =
      .classFields name (relocate change fields) (relocate change body) (change.place mark) := by
  have params : Param.mapList change.place fields = relocate change fields :=
    Param.mapList_eq_map _ fields
  have lines : Stmt.mapList change.place body = relocate change body := Stmt.mapList_eq_map _ body
  rw [← params, ← lines]
  rfl

theorem Stmt.relocate_methodValue (shared : Bool) (name : String) (params : List (Param Span))
    (value : Expr Span) (mark : Span) :
    relocate change (Stmt.methodValue shared name params value mark) =
      .methodValue shared name (relocate change params) (relocate change value)
        (change.place mark) :=
  congrArg (Stmt.methodValue shared name · (relocate change value) (change.place mark))
    (Param.mapList_eq_map _ params)

theorem Stmt.relocate_methodBlock (shared : Bool) (name : String) (params : List (Param Span))
    (body : List (Stmt Span)) (mark : Span) :
    relocate change (Stmt.methodBlock shared name params body mark) =
      .methodBlock shared name (relocate change params) (relocate change body)
        (change.place mark) := by
  have fields : Param.mapList change.place params = relocate change params :=
    Param.mapList_eq_map _ params
  have lines : Stmt.mapList change.place body = relocate change body := Stmt.mapList_eq_map _ body
  rw [← fields, ← lines]
  rfl

theorem Stmt.relocate_forLoop (bindings : List String) (source : Expr Span)
    (body : List (Stmt Span)) (mark : Span) :
    relocate change (Stmt.forLoop bindings source body mark) =
      .forLoop bindings (relocate change source) (relocate change body) (change.place mark) :=
  congrArg (Stmt.forLoop bindings (relocate change source) · (change.place mark))
    (Stmt.mapList_eq_map _ body)

theorem Stmt.relocate_whileLoop (condition : Expr Span) (body : List (Stmt Span)) (mark : Span) :
    relocate change (Stmt.whileLoop condition body mark) =
      .whileLoop (relocate change condition) (relocate change body) (change.place mark) :=
  congrArg (Stmt.whileLoop (relocate change condition) · (change.place mark))
    (Stmt.mapList_eq_map _ body)

theorem Expr.variableNames?_relocate (elements : List (Expr Span)) :
    Expr.variableNames? (relocate change elements) = Expr.variableNames? elements := by
  induction elements with
  | nil => rfl
  | cons first rest ih =>
    rw [relocate_cons]
    cases first <;> simp only [relocate, Expr.map, Expr.variableNames?]
    exact congrArg _ ih

/-- Whether an expression can be assigned, and as what, does not depend on its place. -/
theorem Expr.toTarget?_relocate (value : Expr Span) :
    (relocate change value).toTarget? = value.toTarget?.map (relocate change) := by
  cases value with
  | tuple elements mark =>
    rw [Expr.relocate_tuple]
    cases elements with
    | nil => rfl
    | cons first rest =>
      have names := Expr.variableNames?_relocate change (first :: rest)
      rw [relocate_cons] at names ⊢
      simp only [Expr.toTarget?, names, Option.map_map]
      rfl
  | _ => rfl

end Values

end Parlance
