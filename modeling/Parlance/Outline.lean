import Parlance.Syntax

/-!
Contract: programs as trees of named fields.

An outline names every node and every field, so it can be shown, listed or stored without knowing
the tree types. Owns: the outline of a program and its text, one field to a line, two spaces for
each level. Does not own: how programs are read or laid out as source text. Embeds `_dump_ast`.
-/

namespace Parlance

mutual

inductive Outline where
  | node (kind : String) (fields : List Field) (span : Span)

inductive Field where
  /-- An optional part that is not there. -/
  | absent (name : String)
  | flag (name : String) (value : Bool)
  | text (name : String) (value : String)
  | texts (name : String) (values : List String)
  | child (name : String) (value : Outline)
  | children (name : String) (values : List Outline)

end

mutual

def Expr.outline : Expr Span → Outline
  | .number literal span => .node "NumberLit" [.text "value" literal] span
  | .string value quote span => .node "StringLit" [.text "value" value, .text "quote" quote] span
  | .boolean value span => .node "BooleanLit" [.flag "value" value] span
  | .nil span => .node "NilLit" [] span
  | .tuple elements span => .node "TupleLit" [.children "elements" (Expr.outlines elements)] span
  | .array elements span => .node "ArrayLit" [.children "elements" (Expr.outlines elements)] span
  | .dictionary entries span => .node "DictLit" [.children "entries" (Entry.outlines entries)] span
  | .variable name span => .node "Variable" [.text "name" name] span
  | .path segments span => .node "PathExpr" [.texts "segments" segments] span
  | .grouping inner span => .node "Grouping" [.child "expr" inner.outline] span
  | .closureLine params body span =>
    .node "Closure"
      [.texts "params" params, .children "body" [body.outline], .flag "inline" true] span
  | .closureBlock params body span =>
    .node "Closure"
      [.texts "params" params, .children "body" (Stmt.outlines body), .flag "inline" false] span
  | .ifLine condition thenDo span =>
    .node "IfExpr"
      [.child "condition" condition.outline, .children "then_body" [thenDo.outline],
        .absent "else_body", .flag "inline" true] span
  | .ifLineElse condition thenDo elseDo span =>
    .node "IfExpr"
      [.child "condition" condition.outline, .children "then_body" [thenDo.outline],
        .children "else_body" [elseDo.outline], .flag "inline" true] span
  | .ifBlock condition thenDo span =>
    .node "IfExpr"
      [.child "condition" condition.outline, .children "then_body" (Stmt.outlines thenDo),
        .absent "else_body", .flag "inline" false] span
  | .ifBlockElse condition thenDo elseDo span =>
    .node "IfExpr"
      [.child "condition" condition.outline, .children "then_body" (Stmt.outlines thenDo),
        .children "else_body" (Stmt.outlines elseDo), .flag "inline" false] span
  | .unary op operand span =>
    .node "UnaryExpr" [.text "op" op.spelling, .child "operand" operand.outline] span
  | .binary left op right span =>
    .node "BinaryExpr"
      [.child "left" left.outline, .text "op" op.spelling, .child "right" right.outline] span
  | .index target place span =>
    .node "IndexExpr" [.child "target" target.outline, .child "index" place.outline] span
  | .access target member span =>
    .node "AccessExpr" [.child "target" target.outline, .text "member" member] span
  | .call target args span =>
    .node "CallExpr" [.child "target" target.outline, .children "args" (Expr.outlines args)] span

def Expr.outlines : List (Expr Span) → List Outline
  | [] => []
  | first :: rest => first.outline :: Expr.outlines rest

def Stmt.outline : Stmt Span → Outline
  | .use path span => .node "UseDecl" [.texts "path" path] span
  | .classBare name body span =>
    .node "ClassDef"
      [.text "name" name, .absent "fields", .children "body" (Stmt.outlines body)] span
  | .classFields name fields body span =>
    .node "ClassDef"
      [.text "name" name, .children "fields" (Param.outlines fields),
        .children "body" (Stmt.outlines body)] span
  | .methodValue shared name params value span =>
    .node "MethodDef"
      [.text "name" name, .children "params" (Param.outlines params),
        .child "body" value.outline, .flag "is_static" shared] span
  | .methodBlock shared name params body span =>
    .node "MethodDef"
      [.text "name" name, .children "params" (Param.outlines params),
        .children "body" (Stmt.outlines body), .flag "is_static" shared] span
  | .forLoop bindings source body span =>
    .node "ForLoop"
      [.texts "bindings" bindings, .child "iterable" source.outline,
        .children "body" (Stmt.outlines body)] span
  | .whileLoop condition body span =>
    .node "WhileLoop"
      [.child "condition" condition.outline, .children "body" (Stmt.outlines body)] span
  | .breakLoop span => .node "Break" [] span
  | .continueLoop span => .node "Continue" [] span
  | .returnNothing span => .node "Return" [.absent "value"] span
  | .returnValue value span => .node "Return" [.child "value" value.outline] span
  | .assign target op value span =>
    .node "Assignment"
      [.child "target" target.outline, .text "op" op.spelling, .child "value" value.outline] span
  | .expression value span => .node "ExprStmt" [.child "expr" value.outline] span

def Stmt.outlines : List (Stmt Span) → List Outline
  | [] => []
  | first :: rest => first.outline :: Stmt.outlines rest

def Param.outline : Param Span → Outline
  | .plain name span => .node "Param" [.text "name" name, .absent "default"] span
  | .defaulted name value span =>
    .node "Param" [.text "name" name, .child "default" value.outline] span

def Param.outlines : List (Param Span) → List Outline
  | [] => []
  | first :: rest => first.outline :: Param.outlines rest

def Entry.outline : Entry Span → Outline
  | .mk key value span => .node "DictEntry" [.text "key" key, .child "value" value.outline] span

def Entry.outlines : List (Entry Span) → List Outline
  | [] => []
  | first :: rest => first.outline :: Entry.outlines rest

def Target.outline : Target Span → Outline
  | .variable name span => .node "Variable" [.text "name" name] span
  | .access target member span =>
    .node "AccessExpr" [.child "target" target.outline, .text "member" member] span
  | .index target place span =>
    .node "IndexExpr" [.child "target" target.outline, .child "index" place.outline] span
  | .names names span => .node "DestructureTarget" [.texts "names" names] span

end

def Program.outline (program : Program Span) : Outline :=
  .node "Program" [.children "body" (Stmt.outlines program.body)] program.mark

def Field.flagText (value : Bool) : String :=
  if value then "True" else "False"

def Outline.line (level : Nat) (text : String) : String :=
  String.ofList (List.replicate (2 * level) ' ') ++ text

/-- How far a listing comes: its lines, and whether they are all. -/
structure Outline.Dump where
  lines : List String
  whole : Bool
deriving DecidableEq, Repr

namespace Outline.Dump

def andThen (first : Dump) (next : Dump) : Dump :=
  if first.whole then ⟨first.lines ++ next.lines, next.whole⟩ else first

def under (line : String) (rest : Dump) : Dump :=
  ⟨line :: rest.lines, rest.whole⟩

end Outline.Dump

mutual

/-- The listing of an outline from the given level on, with room for so many levels of nodes. A node
is reached before its line is written, and a field's line is written before its nodes are reached. -/
def Outline.dump (level : Nat) : Nat → Outline → Outline.Dump
  | 0, _ => ⟨[], false⟩
  | room + 1, .node kind fields _ =>
    .under (Outline.line level kind) (Field.dumpList (level + 1) room fields)

def Outline.dumpList (level : Nat) (room : Nat) : List Outline → Outline.Dump
  | [] => ⟨[], true⟩
  | first :: rest => (first.dump level room).andThen (Outline.dumpList level room rest)

/-- The listing of a field. Absent fields are left out, and what has fields of its own stands one
level deeper. -/
def Field.dump (level : Nat) (room : Nat) : Field → Outline.Dump
  | .absent _ => ⟨[], true⟩
  | .flag name value => ⟨[Outline.line level (name ++ ": " ++ Field.flagText value)], true⟩
  | .text name value => ⟨[Outline.line level (name ++ ": " ++ Text.quoted value)], true⟩
  | .texts name values => ⟨[Outline.line level (name ++ ": " ++ Text.quotedList values)], true⟩
  | .child name value => .under (Outline.line level (name ++ ":")) (value.dump (level + 1) room)
  | .children name [] => ⟨[Outline.line level (name ++ ": []")], true⟩
  | .children name (first :: rest) =>
    .under (Outline.line level (name ++ ":")) (Outline.dumpList (level + 1) room (first :: rest))

def Field.dumpList (level : Nat) (room : Nat) : List Field → Outline.Dump
  | [] => ⟨[], true⟩
  | first :: rest => (first.dump level room).andThen (Field.dumpList level room rest)

end

end Parlance
