import Parlance.Decimal
import Parlance.Layout
import Parlance.Machine

/-!
Contract: the printer, on trees whose parts may stand in the wrong places.

In a draft any node, and also a bare value, can stand where a statement or an expression belongs.
Owns: drafts, what keeps a draft from being written, and the text of a draft. The printer is that of
`ConcordeFormatter`: it opens the same calls, visits the parts in the same order and stops at the
first fault. Parts are visited in the order in which they are written, except that what stands behind
a member, index or call chain is visited from its outermost part inwards. A line of a block is
indented before its statement is visited, and the links of a chain are visited in one call.
-/

namespace Parlance

/-- Trees with any part in any place. `nothing` stands for an absent value of a `returns` and for an
absent default of a `param`, and a `list` for the block of a `method`. -/
inductive Draft where
  | nothing
  | text (value : String)
  | integer (value : Int)
  | decimal (value : Decimal)
  | flag (value : Bool)
  | list (values : List Draft)
  | number (literal : String)
  | string (value : String) (quote : String)
  | boolean (value : Bool)
  | nil
  | tuple (elements : List Draft)
  | array (elements : List Draft)
  | dictionary (entries : List Draft)
  | variable (name : String)
  | path (segments : List String)
  | grouping (inner : Draft)
  | closure (inline : Bool) (params : List String) (body : List Draft)
  | conditional (inline : Bool) (condition : Draft) (thenDo : List Draft)
  | conditionalElse (inline : Bool) (condition : Draft) (thenDo : List Draft) (elseDo : List Draft)
  | unary (op : UnaryOp) (operand : Draft)
  | binary (left : Draft) (op : String) (right : Draft)
  | index (target : Draft) (place : Draft)
  | access (target : Draft) (member : String)
  | call (target : Draft) (args : List Draft)
  | names (names : List String)
  | param (name : String) (default : Draft)
  | entry (key : String) (value : Draft)
  | use (path : List String)
  | classBare (name : String) (body : List Draft)
  | classFields (name : String) (fields : List Draft) (body : List Draft)
  | method (shared : Bool) (name : String) (params : List Draft) (body : Draft)
  | forLoop (bindings : List String) (source : Draft) (body : List Draft)
  | whileLoop (condition : Draft) (body : List Draft)
  | breakLoop
  | continueLoop
  | returns (value : Draft)
  | assign (target : Draft) (op : String) (value : Draft)
  | expression (value : Draft)
  | program (body : List Draft)
deriving Inhabited

/-- What stands in the wrong place. -/
inductive Misplaced where
  /-- A node of the given kind where a statement belongs. -/
  | statement (kind : String)
  /-- A node of the given kind where an expression belongs. -/
  | expression (kind : String)
  /-- A one-line form without a statement in it. -/
  | emptyBody
  /-- Something else where a parameter or a dictionary entry belongs. -/
  | part
deriving DecidableEq, Repr

def Misplaced.message? : Misplaced → Option String
  | .statement kind => some ("cannot format statement " ++ kind)
  | .expression kind => some ("cannot format expression " ++ kind)
  | .emptyBody | .part => none

namespace Draft

/-- The kind of a node, as messages call it. -/
def kind : Draft → String
  | .nothing => "NoneType"
  | .text _ => "str"
  | .integer _ => "int"
  | .decimal _ => "float"
  | .flag _ => "bool"
  | .list _ => "list"
  | .number _ => "NumberLit"
  | .string _ _ => "StringLit"
  | .boolean _ => "BooleanLit"
  | .nil => "NilLit"
  | .tuple _ => "TupleLit"
  | .array _ => "ArrayLit"
  | .dictionary _ => "DictLit"
  | .variable _ => "Variable"
  | .path _ => "PathExpr"
  | .grouping _ => "Grouping"
  | .closure _ _ _ => "Closure"
  | .conditional _ _ _ | .conditionalElse _ _ _ _ => "IfExpr"
  | .unary _ _ => "UnaryExpr"
  | .binary _ _ _ => "BinaryExpr"
  | .index _ _ => "IndexExpr"
  | .access _ _ => "AccessExpr"
  | .call _ _ => "CallExpr"
  | .names _ => "DestructureTarget"
  | .param _ _ => "Param"
  | .entry _ _ => "DictEntry"
  | .use _ => "UseDecl"
  | .classBare _ _ | .classFields _ _ _ => "ClassDef"
  | .method _ _ _ _ => "MethodDef"
  | .forLoop _ _ _ => "ForLoop"
  | .whileLoop _ _ => "WhileLoop"
  | .breakLoop => "Break"
  | .continueLoop => "Continue"
  | .returns _ => "Return"
  | .assign _ _ _ => "Assignment"
  | .expression _ => "ExprStmt"
  | .program _ => "Program"

def helper? : Draft → Option Call
  | .unary _ _ => some .unary
  | .binary _ _ _ => some .binary
  | .index _ _ | .access _ _ | .call _ _ => some .suffixes
  | .closure _ _ _ => some .closure
  | .conditional _ _ _ | .conditionalElse _ _ _ _ => some .conditional
  | _ => none

/-- The calls that open when an expression is visited, outermost first. In a chain that is walked the
next link opens none. -/
def visiting (walked : Option Call) (held : Draft) : List Call :=
  if walked.isSome && held.helper? == walked then [] else .expression :: held.helper?.toList

inductive Fault where
  | misplaced (cause : Misplaced)
  /-- The width is no whole number. -/
  | unusable
  /-- A machine word does not count the spaces before a line. -/
  | uncountable
  | unstorable
  /-- The stack does not hold the calls that are open. -/
  | exhausted
deriving DecidableEq, Repr

/-- Where the printer stands: the level of the block, and the open calls, innermost first. -/
structure Site where
  level : Nat
  calls : List Call
deriving DecidableEq, Repr

namespace Site

def enter (site : Site) (next : Call) : Site :=
  { site with calls := next :: site.calls }

/-- The site within calls that are opened one in another, outermost first. -/
def through (site : Site) (calls : List Call) : Site :=
  calls.foldl enter site

def row (site : Site) : Site :=
  { site.through [.lines, .comprehension] with level := site.level + 1 }

end Site

section Printing

variable (machine : Machine) (width : Option Int)

/-- Opens calls one in another, outermost first, as far as the stack holds them. -/
def opens (site : Site) : List Call → Except Fault Unit
  | [] => .ok ()
  | next :: rest =>
    if machine.holds (site.enter next).calls then opens (site.enter next) rest
    else .error .exhausted

/-- Why a line cannot be indented. A number of spaces below zero stands for none, and has to be
countable all the same. -/
def padFault? (level : Nat) : Option Fault :=
  match width with
  | none => some .unusable
  | some width =>
    if !Machine.counts (width * level) then some .uncountable
    else if !machine.stores (width * level).toNat then some .unstorable
    else none

def indent (site : Site) : Except Fault Unit := do
  opens machine site [.pad]
  match padFault? machine width site.level with
  | some fault => .error fault
  | none => .ok ()

mutual

def expressionLayout (walked : Option Call) (outer : Site) (held : Draft) : Except Fault Layout := do
  opens machine outer (held.visiting walked)
  let site := outer.through (held.visiting walked)
  match held with
  | .number literal => return [.word literal]
  | .string value quote => return [.quoted quote value]
  | .boolean value => return Layout.boolean value
  | .nil => return [.word "nil"]
  | .tuple elements => do
      opens machine site [.comprehension]
      return Layout.tuple (← expressionLayouts (site.enter .comprehension) elements)
  | .array elements => do
      opens machine site [.generator]
      return Layout.bracketed
        (Layout.commas (← expressionLayouts (site.enter .generator) elements))
  | .dictionary entries => do
      opens machine site (if entries.isEmpty then [] else [.generator])
      return Layout.dictionary (← entryLayouts (site.enter .generator) entries)
  | .variable name => return [.word name]
  | .path segments => return Layout.path segments
  | .grouping inner => do return Layout.parenthesized (← expressionLayout none site inner)
  | .closure true params body => do
      return Layout.closureLine params (← firstLayout site body)
  | .closure false params body => do
      opens machine site [.block, .lines, .comprehension]
      return Layout.closureBlock site.level params (← lineLayouts (site.enter .block) body)
  | .conditional true condition thenDo => do
      let condition ← expressionLayout none site condition
      return Layout.ifLine condition (← firstLayout site thenDo)
  | .conditional false condition thenDo => do
      let condition ← expressionLayout none site condition
      opens machine site [.lines, .comprehension]
      return Layout.ifBlock site.level condition (← lineLayouts site thenDo)
  | .conditionalElse true condition thenDo [] => do
      let condition ← expressionLayout none site condition
      return Layout.ifLine condition (← firstLayout site thenDo)
  | .conditionalElse true condition thenDo (elseDo :: _) => do
      let condition ← expressionLayout none site condition
      let thenDo ← firstLayout site thenDo
      return Layout.ifLineElse condition thenDo (← statementLayout site elseDo)
  | .conditionalElse false condition thenDo elseDo => do
      let condition ← expressionLayout none site condition
      opens machine site [.lines, .comprehension]
      let thenDo ← lineLayouts site thenDo
      opens machine site [.lines, .comprehension]
      return Layout.ifBlockElse site.level condition thenDo (← lineLayouts site elseDo)
  | .unary op operand => do
      return Layout.unary op (← expressionLayout (some .unary) site operand)
  | .binary left op right => do
      let left ← expressionLayout (some .binary) site left
      return Layout.infixed left op (← expressionLayout none site right)
  | .index target place => do
      let place ← expressionLayout none site place
      return Layout.index (← expressionLayout (some .suffixes) site target) place
  | .access target member => do
      return Layout.access (← expressionLayout (some .suffixes) site target) member
  | .call target args => do
      opens machine site [.generator]
      let args ← expressionLayouts (site.enter .generator) args
      return Layout.call (← expressionLayout (some .suffixes) site target) args
  | other => .error (.misplaced (.expression other.kind))

def expressionLayouts (site : Site) : List Draft → Except Fault (List Layout)
  | [] => .ok []
  | first :: rest => do
      let layout ← expressionLayout none site first
      return layout :: (← expressionLayouts site rest)

def entryLayouts (site : Site) : List Draft → Except Fault (List Layout)
  | [] => .ok []
  | .entry key value :: rest => do
      let value ← expressionLayout none site value
      return Layout.entry key value :: (← entryLayouts site rest)
  | _ :: _ => .error (.misplaced .part)

def paramLayouts (site : Site) : List Draft → Except Fault (List Layout)
  | [] => .ok []
  | .param name .nothing :: rest => do return [.word name] :: (← paramLayouts site rest)
  | .param name default :: rest => do
      let default ← expressionLayout none site default
      return Layout.defaulted name default :: (← paramLayouts site rest)
  | _ :: _ => .error (.misplaced .part)

def statementLayout (outer : Site) (held : Draft) : Except Fault Layout := do
  opens machine outer [.statement]
  let site := outer.enter .statement
  match held with
  | .use modulePath => do
      opens machine site [.dotted]
      return Layout.use modulePath
  | .classBare name body => do
      opens machine site [.block, .lines, .comprehension]
      return Layout.block site.level (Layout.classHead name)
        (← lineLayouts (site.enter .block) body)
  | .classFields name fields body => do
      opens machine site [.params]
      let fields ← paramLayouts (site.enter .params) fields
      opens machine site [.block, .lines, .comprehension]
      return Layout.block site.level (Layout.classFieldsHead name fields)
        (← lineLayouts (site.enter .block) body)
  | .method shared name params (.list body) => do
      opens machine site [.method, .params]
      let params ← paramLayouts (site.through [.method, .params]) params
      opens machine (site.enter .method) [.block, .lines, .comprehension]
      return Layout.block site.level (Layout.methodHead shared name params)
        (← lineLayouts (site.through [.method, .block]) body)
  | .method shared name params value => do
      opens machine site [.method, .params]
      let params ← paramLayouts (site.through [.method, .params]) params
      return Layout.infixed (Layout.methodHead shared name params) "="
        (← expressionLayout none (site.enter .method) value)
  | .forLoop bindings source body => do
      let source ← expressionLayout none site source
      opens machine site [.block, .lines, .comprehension]
      return Layout.block site.level (Layout.forHead bindings source)
        (← lineLayouts (site.enter .block) body)
  | .whileLoop condition body => do
      let condition ← expressionLayout none site condition
      opens machine site [.block, .lines, .comprehension]
      return Layout.block site.level (Layout.whileHead condition)
        (← lineLayouts (site.enter .block) body)
  | .breakLoop => return [.word "break"]
  | .continueLoop => return [.word "continue"]
  | .returns .nothing => return [.word "return"]
  | .returns value => do return Layout.returnValue (← expressionLayout none site value)
  | .assign (.names targets) op value => do
      opens machine site [.target]
      return Layout.infixed (Layout.names targets) op (← expressionLayout none site value)
  | .assign target op value => do
      opens machine site [.target]
      let target ← expressionLayout none (site.enter .target) target
      return Layout.infixed target op (← expressionLayout none site value)
  | .expression value => expressionLayout none site value
  | other => .error (.misplaced (.statement other.kind))

/-- The layouts of the lines of a block. The line that closes the block, or that begins its
alternative, is indented behind them. -/
def lineLayouts (site : Site) : List Draft → Except Fault (List Layout)
  | [] => do
      indent machine width site
      return []
  | first :: rest => do
      indent machine width site.row
      let layout ← statementLayout site.row first
      return layout :: (← lineLayouts site rest)

def firstLayout (site : Site) : List Draft → Except Fault Layout
  | [] => .error (.misplaced .emptyBody)
  | first :: _ => statementLayout site first

end

def declares : Draft → Bool
  | .classBare .. | .classFields .. | .method .. => true
  | _ => false

/-- The statements of a program behind its first one, laid out. -/
def laterRows (site : Site) : List Draft → Except Fault (List Layout.Row)
  | [] => .ok []
  | first :: rest => do
      opens machine site [.declaration]
      let layout ← statementLayout machine width site first
      return ⟨first.declares, layout⟩ :: (← laterRows site rest)

def rows (body : List Draft) : Except Fault (List Layout.Row) := do
  opens machine ⟨0, []⟩ [.program]
  match body with
  | [] => return []
  | first :: rest => do
      let layout ← statementLayout machine width ⟨0, [.program]⟩ first
      return ⟨first.declares, layout⟩ :: (← laterRows machine width ⟨0, [.program]⟩ rest)

def write (body : List Draft) : Except Fault String := do
  let rows ← rows machine width body
  let text := Layout.page (width.getD 0) rows
  if machine.stores text.length then .ok text else .error .unstorable

end Printing

end Draft

end Parlance
