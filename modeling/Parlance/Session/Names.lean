import Parlance.Keyed
import Parlance.Syntax

/-!
Contract: the names that a program introduces.

Statements are visited in order, each before the statements in its blocks; the branches of an `if`
that is a statement of its own are such blocks too. Owns: this walk, the names with their kinds, the
completion list and the description of a declared name. Embeds `_walk`, `_defined_names`,
`_completion_items` and `_hover_text`.
-/

namespace Parlance

section Walk

variable {σ : Type}

mutual

/-- The statements in the blocks of a statement, at any depth. -/
def Stmt.within : Stmt σ → List (Stmt σ)
  | .classBare _ body _ | .classFields _ _ body _ | .methodBlock _ _ _ body _
  | .forLoop _ _ body _ | .whileLoop _ body _ => Stmt.walk body
  | .expression (.ifLine _ thenDo _) _ => thenDo :: thenDo.within
  | .expression (.ifLineElse _ thenDo elseDo _) _ =>
    (thenDo :: thenDo.within) ++ (elseDo :: elseDo.within)
  | .expression (.ifBlock _ thenDo _) _ => Stmt.walk thenDo
  | .expression (.ifBlockElse _ thenDo elseDo _) _ => Stmt.walk thenDo ++ Stmt.walk elseDo
  | _ => []

/-- Statements, each followed by the statements in its blocks. -/
def Stmt.walk : List (Stmt σ) → List (Stmt σ)
  | [] => []
  | first :: rest => first :: (first.within ++ Stmt.walk rest)

end

end Walk

namespace Session

inductive NameKind where
  | method | field | variable | declaredClass
deriving DecidableEq, Repr

def NameKind.number : NameKind → Nat
  | .method => 2
  | .field => 5
  | .variable => 6
  | .declaredClass => 7

abbrev Names := List (String × NameKind)

namespace Names

def add (kind : NameKind) (names : Names) (name : String) : Names :=
  match names.lookup name with
  | some _ => names
  | none => names ++ [(name, kind)]

/-- Adds what one statement introduces. The names of classes and methods take precedence. -/
def addStmt {σ : Type} (names : Names) (stmt : Stmt σ) : Names :=
  match stmt with
  | .classBare name _ _ => Keyed.put name .declaredClass names
  | .classFields name fields _ _ =>
    (fields.map Param.name).foldl (add .field) (Keyed.put name .declaredClass names)
  | .methodValue _ name params _ _ | .methodBlock _ name params _ _ =>
    (params.map Param.name).foldl (add .variable) (Keyed.put name .method names)
  | .forLoop bindings _ _ _ => bindings.foldl (add .variable) names
  | .assign (.variable name _) _ _ _ => add .variable names name
  | .assign (.names targets _) _ _ _ => targets.foldl (add .variable) names
  | _ => names

def ofProgram {σ : Type} (program : Program σ) : Names :=
  (Stmt.walk program.body).foldl addStmt []

def sorted (names : Names) : Names :=
  names.mergeSort fun left right => decide (left.1 ≤ right.1)

end Names

/-- A suggestion of an editor, a reserved word or a name. -/
structure Suggestion where
  label : String
  kind : Option NameKind
deriving DecidableEq, Repr

namespace Suggestion

def number (suggestion : Suggestion) : Nat :=
  match suggestion.kind with
  | some kind => kind.number
  | none => 14

/-- Suggestions without those whose label came before. -/
def distinct : List String → List Suggestion → List Suggestion
  | _, [] => []
  | seen, first :: rest =>
    if seen.contains first.label then distinct seen rest
    else first :: distinct (first.label :: seen) rest

def reserved : List Suggestion :=
  ((Kind.reserved.map (·.1)).mergeSort fun left right => decide (left ≤ right)).map (⟨·, none⟩)

/-- The suggestions for a document: reserved words, then the names of its program if it has one. -/
def all {σ : Type} (program : Option (Program σ)) : List Suggestion :=
  let names :=
    match program with
    | some program => (Names.ofProgram program).sorted.map fun (name, kind) => ⟨name, some kind⟩
    | none => []
  distinct [] (reserved ++ names)

end Suggestion

section Description

variable {σ : Type}

def paramsText (params : List (Param σ)) : String :=
  "(" ++ ", ".intercalate (params.map Param.name) ++ ")"

def methodText (shared : Bool) (name : String) (params : List (Param σ)) : String :=
  "def " ++ (if shared then "self::" else "") ++ name ++ paramsText params

def describes? (word : String) (stmt : Stmt σ) : Option String :=
  match stmt with
  | .classBare name _ _ =>
    if name = word then some ("**class** `" ++ name ++ "`") else none
  | .classFields name fields _ _ =>
    if name = word then some ("**class** `" ++ name ++ paramsText fields ++ "`") else none
  | .methodValue shared name params _ _ | .methodBlock shared name params _ _ =>
    if name = word then some ("**method** `" ++ methodText shared name params ++ "`") else none
  | _ => none

def description? (program : Program σ) (word : String) : Option String :=
  (Stmt.walk program.body).findSome? (describes? word)

end Description

end Session

end Parlance
