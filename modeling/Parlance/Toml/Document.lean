import Parlance.Text.Lines
import Parlance.Toml.Reader

/-!
Contract: TOML documents as tables.

Owns: the lines of a document and what may not be declared twice. A table header declares its table;
the keys of a dotted assignment declare the tables on their way, from the next header on; an
array or inline table is closed once it is written. A new item of an array of tables starts
afresh. Embeds the reader of documents behind `load_config`.
-/

namespace Parlance.Toml

/-- What has been declared, what will count as declared from the next header on, and what is
closed. -/
structure Marks where
  declared : List (List String)
  pending : List (List String)
  closed : List (List String)

namespace Marks

def none : Marks := ⟨[], [], []⟩

def isClosed (marks : Marks) (path : List String) : Bool :=
  marks.closed.any (·.isPrefixOf path)

def isDeclared (marks : Marks) (path : List String) : Bool :=
  marks.declared.contains path

def settle (marks : Marks) : Marks :=
  ⟨marks.pending ++ marks.declared, [], marks.closed⟩

def clear (marks : Marks) (path : List String) : Marks :=
  ⟨marks.declared.filter (!path.isPrefixOf ·), marks.pending,
    marks.closed.filter (!path.isPrefixOf ·)⟩

def declare (marks : Marks) (path : List String) : Marks :=
  ⟨path :: marks.declared, marks.pending, marks.closed⟩

end Marks

structure Draft where
  table : Table
  marks : Marks
  header : List String

namespace Draft

def empty : Draft := ⟨[], .none, []⟩

def openTable (draft : Draft) (path : List String) : Option Draft :=
  let marks := draft.marks.settle
  if marks.isDeclared path || marks.isClosed path then none
  else
    (draft.table.modify true some path).map fun table => ⟨table, marks.declare path, path⟩

def openItem (draft : Draft) (path : List String) : Option Draft :=
  let marks := draft.marks.settle
  if marks.isClosed path then none
  else
    (draft.table.modify true (Table.addToArray (path.getLast?.getD "")) path.dropLast).map
      fun table => ⟨table, (marks.clear path).declare path, path⟩

/-- The paths of the tables on the way to a dotted key. -/
def onTheWay (header : List String) (path : List String) : List (List String) :=
  (List.range (path.length - 1)).map fun i => header ++ path.take (i + 1)

def assign (draft : Draft) (path : List String) (value : Value) : Option Draft :=
  let way := onTheWay draft.header path
  let parent := draft.header ++ path.dropLast
  if way.any draft.marks.isDeclared || draft.marks.isClosed parent then none
  else
    (draft.table.modify true (Table.addNew (path.getLast?.getD "") value) parent).map fun table =>
      let closed :=
        if Reader.isClosed value then (draft.header ++ path) :: draft.marks.closed
        else draft.marks.closed
      ⟨table, ⟨draft.marks.declared, way ++ draft.marks.pending, closed⟩, draft.header⟩

end Draft

namespace Document

def lift (draft : Option Draft) : Reader Draft :=
  match draft with
  | some draft => return draft
  | none => Reader.reject

/-- Takes what stands on a line before its comment. -/
def statement (draft : Draft) : Reader Draft := do
  match ← Reader.peek with
  | some '[' =>
    if ← Reader.accept "[[" then
      Reader.blanks
      let path ← Reader.key
      let draft ← lift (draft.openItem path)
      Reader.expect "]]"
      return draft
    else
      Reader.expect "["
      Reader.blanks
      let path ← Reader.key
      let draft ← lift (draft.openTable path)
      Reader.expect "]"
      return draft
  | some '#' | some '\n' | none => return draft
  | some _ =>
    let (path, value) ← Reader.assignment fun text => Reader.value (text.length + 1) text
    lift (draft.assign path value)

def lines : Nat → Draft → Reader Draft
  | 0, _ => Reader.reject
  | fuel + 1, draft => do
      Reader.blanks
      let draft ← statement draft
      Reader.blanks
      Reader.comment
      match ← Reader.peek with
      | none => return draft
      | some _ =>
        Reader.expect "\n"
        lines fuel draft

end Document

def Table.ofText (text : String) : Except Fault Table :=
  let chars := Text.dropReturns text.toList
  match Document.lines (chars.length + 1) .empty chars with
  | .ok (draft, _) => .ok draft.table
  | .error fault => .error fault

end Parlance.Toml
