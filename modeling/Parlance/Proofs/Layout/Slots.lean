import Mathlib.Logic.Relation
import Parlance.Layout.Draft

/-!
Contract: which drafts can be written.

Writing a draft goes from slot to slot: a slot asks for a call to be opened, for a statement, an
expression, a parameter, an entry, the statement of a one-line form, or for an indentation, and what
it holds says which slots come next. A slot with the wrong thing in it leads nowhere. Owns: the slots,
what each of them leads to and what can be wrong with it, and the theorem that a draft is written
exactly if nothing is wrong with any slot that is visited and its text can be stored. Does not own:
the text that is written.
-/

namespace Parlance.Draft

def isStatement : Draft → Bool
  | .use _ | .classBare .. | .classFields .. | .method .. | .forLoop .. | .whileLoop .. | .breakLoop
  | .continueLoop | .returns _ | .assign .. | .expression _ => true
  | _ => false

def isExpression : Draft → Bool
  | .number _ | .string .. | .boolean _ | .nil | .tuple _ | .array _ | .dictionary _ | .variable _
  | .path _ | .grouping _ | .closure .. | .conditional .. | .conditionalElse .. | .unary ..
  | .binary .. | .index .. | .access .. | .call .. => true
  | _ => false

def isParam : Draft → Bool
  | .param .. => true
  | _ => false

def isEntry : Draft → Bool
  | .entry .. => true
  | _ => false

/-- What a slot asks for. -/
inductive Role where
  | statement
  | expression
  | param
  | entry

def Role.admits (role : Role) (held : Draft) : Bool :=
  match role with
  | .statement => held.isStatement
  | .expression => held.isExpression
  | .param => held.isParam
  | .entry => held.isEntry

/-- How a draft is called that stands in a slot in which it does not belong. Of a statement or an
expression the message tells what kind of node stands there instead. -/
def Role.misplaced (role : Role) (held : Draft) : Misplaced :=
  match role with
  | .statement => .statement held.kind
  | .expression => .expression held.kind
  | .param | .entry => .part

/-- A place that is visited when a draft is written, with what it holds. A statement and an
expression are visited inside the calls that they open. -/
inductive Slot where
  /-- The calls of the site are open, the innermost being new. -/
  | call (site : Site)
  | part (role : Role) (site : Site) (held : Draft)
  /-- The body of a one-line form, of which the first statement is written. -/
  | oneLine (site : Site) (body : List Draft)
  /-- The indentation of a line. -/
  | line (site : Site)

namespace Slot

/-- Calls that are opened one in another, outermost first. -/
def calls (site : Site) : List Call → List Slot
  | [] => []
  | next :: rest => .call (site.enter next) :: calls (site.enter next) rest

def visitStatement (outer : Site) (held : Draft) : List Slot :=
  calls outer [.statement] ++ [.part .statement (outer.enter .statement) held]

def visitExpression (walked : Option Call) (outer : Site) (held : Draft) : List Slot :=
  calls outer (held.visiting walked) ++
    [.part .expression (outer.through (held.visiting walked)) held]

def visitExpressions (site : Site) (values : List Draft) : List Slot :=
  values.flatMap (visitExpression none site)

def visitLine (site : Site) : List Slot :=
  calls site [.pad] ++ [.line site]

/-- The lines of a block, with the line that ends it. They stand one level deeper, and the line that
ends the block does not. -/
def visitLines (site : Site) : List Draft → List Slot
  | [] => visitLine site
  | first :: rest => visitLine site.row ++ (visitStatement site.row first ++ visitLines site rest)

/-- The lines of a block that is no branch of a conditional. -/
def visitBlock (site : Site) (body : List Draft) : List Slot :=
  calls site [.block, .lines, .comprehension] ++ visitLines (site.enter .block) body

def visitBranch (site : Site) (body : List Draft) : List Slot :=
  calls site [.lines, .comprehension] ++ visitLines site body

/-- The slots inside an expression, in the order of visits. -/
def insideExpression (site : Site) : Draft → List Slot
  | .tuple elements =>
    calls site [.comprehension] ++ visitExpressions (site.enter .comprehension) elements
  | .array elements => calls site [.generator] ++ visitExpressions (site.enter .generator) elements
  | .dictionary entries =>
    calls site (if entries.isEmpty then [] else [.generator]) ++
      entries.map (.part .entry (site.enter .generator))
  | .grouping inner => visitExpression none site inner
  | .unary _ operand => visitExpression (some .unary) site operand
  | .access target _ => visitExpression (some .suffixes) site target
  | .closure true _ body => [.oneLine site body]
  | .closure false _ body => visitBlock site body
  | .conditional true condition thenDo | .conditionalElse true condition thenDo [] =>
    visitExpression none site condition ++ [.oneLine site thenDo]
  | .conditional false condition thenDo =>
    visitExpression none site condition ++ visitBranch site thenDo
  | .conditionalElse true condition thenDo (elseDo :: _) =>
    visitExpression none site condition ++ ([.oneLine site thenDo] ++ visitStatement site elseDo)
  | .conditionalElse false condition thenDo elseDo =>
    visitExpression none site condition ++
      (calls site [.lines, .comprehension] ++
        (visitLines site thenDo ++ visitBranch site elseDo))
  | .binary left _ right =>
    visitExpression (some .binary) site left ++ visitExpression none site right
  | .index target place =>
    visitExpression none site place ++ visitExpression (some .suffixes) site target
  | .call target args =>
    calls site [.generator] ++ (visitExpressions (site.enter .generator) args ++
      visitExpression (some .suffixes) site target)
  | _ => []

/-- The slots inside a statement, in the order of visits. -/
def insideStatement (site : Site) : Draft → List Slot
  | .use _ => calls site [.dotted]
  | .classBare _ body => visitBlock site body
  | .classFields _ fields body =>
    calls site [.params] ++ (fields.map (.part .param (site.enter .params)) ++ visitBlock site body)
  | .method _ _ params (.list body) =>
    calls site [.method, .params] ++
      (params.map (.part .param (site.through [.method, .params])) ++
        visitBlock (site.enter .method) body)
  | .method _ _ params value =>
    calls site [.method, .params] ++
      (params.map (.part .param (site.through [.method, .params])) ++
        visitExpression none (site.enter .method) value)
  | .forLoop _ source body => visitExpression none site source ++ visitBlock site body
  | .whileLoop condition body => visitExpression none site condition ++ visitBlock site body
  | .returns .nothing => []
  | .returns value => visitExpression none site value
  | .assign (.names _) _ value => calls site [.target] ++ visitExpression none site value
  | .assign target _ value =>
    calls site [.target] ++
      (visitExpression none (site.enter .target) target ++ visitExpression none site value)
  | .expression value => visitExpression none site value
  | _ => []

def inside : Slot → List Slot
  | .part .statement site held => insideStatement site held
  | .part .expression site held => insideExpression site held
  | .part .param _ (.param _ .nothing) => []
  | .part .param site (.param _ default) => visitExpression none site default
  | .part .entry site (.entry _ value) => visitExpression none site value
  | .oneLine site (first :: _) => visitStatement site first
  | _ => []

def fault? (machine : Machine) (width : Option Int) : Slot → Option Fault
  | .call site => if machine.holds site.calls then none else some .exhausted
  | .part role _ held => if role.admits held then none else some (.misplaced (role.misplaced held))
  | .oneLine _ [] => some (.misplaced .emptyBody)
  | .oneLine _ (_ :: _) => none
  | .line site => padFault? machine width site.level

end Slot

/-- The slots that can be reached from the given ones. -/
def Reaches (slots : List Slot) (slot : Slot) : Prop :=
  ∃ first ∈ slots, Relation.ReflTransGen (fun here next => next ∈ here.inside) first slot

def Slot.visitLater (site : Site) (body : List Draft) : List Slot :=
  body.flatMap fun held => calls site [.declaration] ++ visitStatement site held

def Slot.visitProgram : List Draft → List Slot
  | [] => calls ⟨0, []⟩ [.program]
  | first :: rest =>
    calls ⟨0, []⟩ [.program] ++
      (visitStatement ⟨0, [.program]⟩ first ++ visitLater ⟨0, [.program]⟩ rest)

/-- The slots that are visited when the statements of a program are written. -/
def Visits (body : List Draft) (slot : Slot) : Prop :=
  Reaches (Slot.visitProgram body) slot

theorem Reaches.mono {few many : List Slot} {slot : Slot} (reaches : Reaches few slot)
    (within : few ⊆ many) :
    Reaches many slot := by
  obtain ⟨first, member, path⟩ := reaches
  exact ⟨first, within member, path⟩

theorem Reaches.append {front back : List Slot} {slot : Slot}
    (reaches : Reaches (front ++ back) slot) :
    Reaches front slot ∨ Reaches back slot := by
  obtain ⟨first, member, path⟩ := reaches
  rcases List.mem_append.mp member with member | member
  · exact .inl ⟨first, member, path⟩
  · exact .inr ⟨first, member, path⟩

theorem reaches_singleton {here slot : Slot} :
    Reaches [here] slot ↔ slot = here ∨ Reaches here.inside slot := by
  constructor
  · rintro ⟨first, member, path⟩
    obtain rfl := List.mem_singleton.mp member
    rcases path.cases_head with same | ⟨next, leads, path⟩
    · exact .inl same.symm
    · exact .inr ⟨next, leads, path⟩
  · rintro (rfl | ⟨next, leads, path⟩)
    · exact ⟨slot, List.mem_singleton_self slot, .refl⟩
    · exact ⟨here, List.mem_singleton_self here, .head leads path⟩

/-- A run that visits the given slots: it succeeds only if nothing is wrong with any slot that they
reach, and otherwise fails for what is wrong with one of them. -/
structure Checks (machine : Machine) (width : Option Int) (slots : List Slot) {α : Type}
    (run : Except Fault α) : Prop where
  clean : ∀ value, run = .ok value → ∀ slot, Reaches slots slot → slot.fault? machine width = none
  blames : ∀ fault, run = .error fault →
    ∃ slot, Reaches slots slot ∧ slot.fault? machine width = some fault

namespace Checks

variable {machine : Machine} {width : Option Int} {front back slots : List Slot} {slot : Slot}
variable {α β : Type} {run : Except Fault α} {fault : Fault}

theorem nothing (value : α) : Checks machine width [] (.ok value : Except Fault α) where
  clean _ _ _ reaches := by
    obtain ⟨first, member, -⟩ := reaches
    contradiction
  blames _ fails := by cases fails

theorem bind {next : α → Except Fault β} (first : Checks machine width front run)
    (second : ∀ value, Checks machine width back (next value)) :
    Checks machine width (front ++ back) (run >>= next) := by
  cases outcome : run with
  | error cause =>
    obtain ⟨slot, reaches, blamed⟩ := first.blames cause outcome
    refine ⟨fun value succeeds => (by cases succeeds), fun fault fails => ?_⟩
    obtain rfl : cause = fault := Except.error.inj fails
    exact ⟨slot, reaches.mono (List.subset_append_left front back), blamed⟩
  | ok middle =>
    refine ⟨fun value succeeds slot reaches => ?_, fun fault fails => ?_⟩
    · rcases reaches.append with reaches | reaches
      · exact first.clean middle outcome slot reaches
      · exact (second middle).clean value succeeds slot reaches
    · obtain ⟨slot, reaches, blamed⟩ := (second middle).blames fault fails
      exact ⟨slot, reaches.mono (List.subset_append_right front back), blamed⟩

theorem map (checks : Checks machine width slots run) (f : α → β) :
    Checks machine width slots (run >>= fun value => pure (f value)) := by
  rw [← List.append_nil slots]
  exact checks.bind fun value => nothing (f value)

/-- A slot that holds what it should, with the slots that it leads to. -/
theorem filled (proper : slot.fault? machine width = none)
    (checks : Checks machine width slot.inside run) :
    Checks machine width [slot] run := by
  refine ⟨fun value succeeds other reaches => ?_, fun fault fails => ?_⟩
  · rcases reaches_singleton.mp reaches with rfl | reaches
    · exact proper
    · exact checks.clean value succeeds other reaches
  · obtain ⟨other, reaches, blamed⟩ := checks.blames fault fails
    exact ⟨other, reaches_singleton.mpr (.inr reaches), blamed⟩

/-- A slot with something wrong in it, and slots behind it that are not visited any more. -/
theorem blamed (wrong : slot.fault? machine width = some fault) :
    Checks machine width (slot :: slots) (.error fault : Except Fault α) where
  clean value succeeds := by cases succeeds
  blames cause fails := by
    obtain rfl : fault = cause := Except.error.inj fails
    exact ⟨slot, ⟨slot, List.mem_cons_self, .refl⟩, wrong⟩

theorem leaf (proper : slot.fault? machine width = none) (value : α) (last : slot.inside = []) :
    Checks machine width [slot] (.ok value : Except Fault α) := by
  refine filled proper ?_
  rw [last]
  exact nothing value

theorem opens (site : Site) (calls : List Call) :
    Checks machine width (Slot.calls site calls) (Draft.opens machine site calls) := by
  induction calls generalizing site with
  | nil => exact nothing ()
  | cons next rest ih =>
    unfold Draft.opens
    split
    · rename_i holds
      have proper : (Slot.call (site.enter next)).fault? machine width = none := if_pos holds
      have own : Checks machine width [.call (site.enter next)] (.ok ()) := .leaf proper () rfl
      exact own.bind fun _ => ih (site.enter next)
    · rename_i full
      have wrong : (Slot.call (site.enter next)).fault? machine width = some .exhausted :=
        if_neg full
      exact .blamed wrong

theorem indent (site : Site) :
    Checks machine width (Slot.visitLine site) (Draft.indent machine width site) := by
  refine (opens site [.pad]).bind fun _ => ?_
  have isFault : (Slot.line site).fault? machine width = padFault? machine width site.level := rfl
  cases outcome : padFault? machine width site.level with
  | none => exact leaf (isFault.trans outcome) () rfl
  | some fault => exact blamed (isFault.trans outcome)

end Checks

/-! ## Every visit -/

section Visits

variable (machine : Machine) (width : Option Int)

mutual

theorem checks_expression (walked : Option Call) (outer : Site) (held : Draft) :
    Checks machine width (Slot.visitExpression walked outer held)
      (held.expressionLayout machine width walked outer) := by
  unfold expressionLayout
  refine (Checks.opens outer _).bind fun _ => ?_
  generalize outer.through (held.visiting walked) = site
  cases held with
  | number | string | boolean | nil | «variable» | path => exact .leaf rfl _ rfl
  | tuple elements =>
    exact .filled rfl ((Checks.opens site _).bind fun _ => (checks_expressions _ elements).map _)
  | array elements =>
    exact .filled rfl ((Checks.opens site _).bind fun _ => (checks_expressions _ elements).map _)
  | dictionary entries =>
    exact .filled rfl ((Checks.opens site _).bind fun _ => (checks_entries _ entries).map _)
  | grouping inner => exact .filled rfl ((checks_expression none site inner).map _)
  | closure inline params body =>
    cases inline with
    | true => exact .filled rfl ((checks_first site body).map _)
    | false =>
      exact .filled rfl ((Checks.opens site _).bind fun _ => (checks_lines _ body).map _)
  | conditional inline condition thenDo =>
    cases inline with
    | true =>
      exact .filled rfl ((checks_expression none site condition).bind fun _ =>
        (checks_first site thenDo).map _)
    | false =>
      exact .filled rfl ((checks_expression none site condition).bind fun _ =>
        (Checks.opens site _).bind fun _ => (checks_lines site thenDo).map _)
  | conditionalElse inline condition thenDo elseDo =>
    cases inline with
    | true =>
      cases elseDo with
      | nil =>
        exact .filled rfl ((checks_expression none site condition).bind fun _ =>
          (checks_first site thenDo).map _)
      | cons elseDo _ =>
        exact .filled rfl ((checks_expression none site condition).bind fun _ =>
          (checks_first site thenDo).bind fun _ => (checks_statement site elseDo).map _)
    | false =>
      exact .filled rfl ((checks_expression none site condition).bind fun _ =>
        (Checks.opens site _).bind fun _ => (checks_lines site thenDo).bind fun _ =>
          (Checks.opens site _).bind fun _ => (checks_lines site elseDo).map _)
  | unary op operand => exact .filled rfl ((checks_expression _ site operand).map _)
  | binary left op right =>
    exact .filled rfl ((checks_expression _ site left).bind fun _ =>
      (checks_expression none site right).map _)
  | index target place =>
    exact .filled rfl ((checks_expression none site place).bind fun _ =>
      (checks_expression _ site target).map _)
  | access target member => exact .filled rfl ((checks_expression _ site target).map _)
  | call target args =>
    exact .filled rfl ((Checks.opens site _).bind fun _ => (checks_expressions _ args).bind fun _ =>
      (checks_expression _ site target).map _)
  | _ => exact .blamed rfl

theorem checks_expressions (site : Site) (values : List Draft) :
    Checks machine width (Slot.visitExpressions site values)
      (expressionLayouts machine width site values) := by
  cases values with
  | nil => exact .nothing []
  | cons first rest =>
    exact (checks_expression none site first).bind fun _ => (checks_expressions site rest).map _

theorem checks_entries (site : Site) (entries : List Draft) :
    Checks machine width (entries.map (.part .entry site))
      (entryLayouts machine width site entries) := by
  cases entries with
  | nil => exact .nothing []
  | cons first rest =>
    cases first with
    | entry key value =>
      have own : Checks machine width [.part .entry site (.entry key value)] _ :=
        .filled rfl (checks_expression none site value)
      exact own.bind fun _ => (checks_entries site rest).map _
    | _ => exact .blamed rfl

theorem checks_params (site : Site) (params : List Draft) :
    Checks machine width (params.map (.part .param site))
      (paramLayouts machine width site params) := by
  cases params with
  | nil => exact .nothing []
  | cons first rest =>
    cases first with
    | param name default =>
      have given := checks_expression none site default
      cases default with
      | nothing =>
        have own : Checks machine width [.part .param site (.param name .nothing)] (.ok ()) :=
          .leaf rfl () rfl
        exact own.bind fun _ => (checks_params site rest).map _
      | _ =>
        exact (Checks.filled rfl given).bind fun _ => (checks_params site rest).map _
    | _ => exact .blamed rfl

theorem checks_statement (outer : Site) (held : Draft) :
    Checks machine width (Slot.visitStatement outer held)
      (held.statementLayout machine width outer) := by
  unfold statementLayout
  refine (Checks.opens outer _).bind fun _ => ?_
  generalize outer.enter .statement = site
  cases held with
  | breakLoop | continueLoop => exact .leaf rfl _ rfl
  | use modulePath => exact .filled rfl ((Checks.opens site _).map _)
  | classBare name body =>
    exact .filled rfl ((Checks.opens site _).bind fun _ => (checks_lines _ body).map _)
  | classFields name fields body =>
    exact .filled rfl ((Checks.opens site _).bind fun _ => (checks_params _ fields).bind fun _ =>
      (Checks.opens site _).bind fun _ => (checks_lines _ body).map _)
  | method shared name params body =>
    have value := checks_expression none (site.enter .method) body
    cases body with
    | list body =>
      exact .filled rfl ((Checks.opens site _).bind fun _ => (checks_params _ params).bind fun _ =>
        (Checks.opens _ _).bind fun _ => (checks_lines _ body).map _)
    | _ =>
      exact .filled rfl ((Checks.opens site _).bind fun _ => (checks_params _ params).bind fun _ =>
        value.map _)
  | forLoop bindings source body =>
    exact .filled rfl ((checks_expression none site source).bind fun _ =>
      (Checks.opens site _).bind fun _ => (checks_lines _ body).map _)
  | whileLoop condition body =>
    exact .filled rfl ((checks_expression none site condition).bind fun _ =>
      (Checks.opens site _).bind fun _ => (checks_lines _ body).map _)
  | returns value =>
    have given := checks_expression none site value
    cases value with
    | nothing => exact .leaf rfl _ rfl
    | _ => exact .filled rfl (given.map _)
  | assign target op value =>
    have assigned := checks_expression none (site.enter .target) target
    cases target with
    | names targets =>
      exact .filled rfl ((Checks.opens site _).bind fun _ =>
        (checks_expression none site value).map _)
    | _ =>
      exact .filled rfl ((Checks.opens site _).bind fun _ => assigned.bind fun _ =>
        (checks_expression none site value).map _)
  | expression value => exact .filled rfl (checks_expression none site value)
  | _ => exact .blamed rfl

theorem checks_lines (site : Site) (body : List Draft) :
    Checks machine width (Slot.visitLines site body) (lineLayouts machine width site body) := by
  cases body with
  | nil => exact (Checks.indent site).map fun _ => []
  | cons first rest =>
    exact (Checks.indent site.row).bind fun _ =>
      (checks_statement site.row first).bind fun _ => (checks_lines site rest).map _

theorem checks_first (site : Site) (body : List Draft) :
    Checks machine width [.oneLine site body] (firstLayout machine width site body) := by
  cases body with
  | nil => exact .blamed rfl
  | cons first rest => exact .filled rfl (checks_statement site first)

end

theorem checks_later (site : Site) (body : List Draft) :
    Checks machine width (Slot.visitLater site body) (laterRows machine width site body) := by
  induction body with
  | nil => exact .nothing []
  | cons first rest ih =>
    rw [Slot.visitLater, List.flatMap_cons, List.append_assoc]
    exact (Checks.opens site _).bind fun _ =>
      (checks_statement machine width site first).bind fun _ => ih.map _

theorem checks_rows (body : List Draft) :
    Checks machine width (Slot.visitProgram body) (rows machine width body) := by
  cases body with
  | nil => exact (Checks.opens _ _).map fun _ => []
  | cons first rest =>
    exact (Checks.opens _ _).bind fun _ => (checks_statement machine width _ first).bind fun _ =>
      (checks_later machine width _ rest).map _

end Visits

/-- A run that visits slots succeeds if nothing is wrong with any of them. -/
theorem Checks.exists_ok_iff {machine : Machine} {width : Option Int} {slots : List Slot} {α : Type}
    {run : Except Fault α} (checks : Checks machine width slots run) :
    (∃ value, run = .ok value) ↔ ∀ slot, Reaches slots slot → slot.fault? machine width = none := by
  constructor
  · rintro ⟨value, succeeds⟩
    exact checks.clean value succeeds
  · intro clean
    cases outcome : run with
    | ok value => exact ⟨value, rfl⟩
    | error fault =>
      obtain ⟨slot, reaches, wrong⟩ := checks.blames fault outcome
      rw [clean slot reaches] at wrong
      contradiction

/-! ## Written drafts -/

/-- Every slot that is visited holds what belongs there. -/
structure Placed (body : List Draft) : Prop where
  parts : ∀ role site held, Visits body (.part role site held) → role.admits held = true
  oneLines : ∀ site row, Visits body (.oneLine site row) → row ≠ []

/-- A machine word counts the spaces before every line that is visited. -/
def Countable (width : Int) (body : List Draft) : Prop :=
  ∀ site, Visits body (.line site) → Machine.counts (width * site.level) = true

/-- The machine has room for writing a draft: the stack holds all calls that are opened, and the
memory the spaces before every line and the text. -/
structure Room (machine : Machine) (width : Int) (body : List Draft) : Prop where
  calls : ∀ site, Visits body (.call site) → machine.holds site.calls = true
  lines : ∀ site, Visits body (.line site) → machine.stores (width * site.level).toNat = true
  text : ∀ rows, Draft.rows machine (some width) body = .ok rows →
    machine.stores (Layout.page width rows).length = true

/-- A fault that something in a visited slot explains, or the length of the text. -/
inductive Explained (machine : Machine) (width : Int) (body : List Draft) : Fault → Prop where
  | part {role : Role} {site : Site} {held : Draft} (visited : Visits body (.part role site held))
      (wrong : role.admits held = false) :
      Explained machine width body (.misplaced (role.misplaced held))
  | emptyBody {site : Site} (visited : Visits body (.oneLine site [])) :
      Explained machine width body (.misplaced .emptyBody)
  | uncountable {site : Site} (visited : Visits body (.line site))
      (wrong : Machine.counts (width * site.level) = false) :
      Explained machine width body .uncountable
  | spaces {site : Site} (visited : Visits body (.line site))
      (wrong : machine.stores (width * site.level).toNat = false) :
      Explained machine width body .unstorable
  | text {rows : List Layout.Row} (laidOut : Draft.rows machine (some width) body = .ok rows)
      (wrong : machine.stores (Layout.page width rows).length = false) :
      Explained machine width body .unstorable
  | exhausted {site : Site} (visited : Visits body (.call site))
      (wrong : machine.holds site.calls = false) :
      Explained machine width body .exhausted

section Written

variable {machine : Machine} {width : Int} {body : List Draft}

theorem padFault?_eq_none_iff {level : Nat} :
    padFault? machine (some width) level = none ↔
      Machine.counts (width * level) = true ∧ machine.stores (width * level).toNat = true := by
  simp only [padFault?]
  cases Machine.counts (width * level) <;> cases machine.stores (width * level).toNat <;> simp

/-- A line cannot be indented for want of a width, because its spaces cannot be counted, or because
they cannot be stored. -/
theorem cause_of_padFault? {width : Option Int} {level : Nat} {fault : Fault}
    (wrong : padFault? machine width level = some fault) :
    width = none ∧ fault = .unusable ∨
      ∃ count, width = some count ∧
        (fault = .uncountable ∧ Machine.counts (count * level) = false ∨
          fault = .unstorable ∧ machine.stores (count * level).toNat = false) := by
  cases width with
  | none => exact .inl ⟨rfl, (Option.some.inj wrong).symm⟩
  | some count =>
    refine .inr ⟨count, rfl, ?_⟩
    simp only [padFault?] at wrong
    cases counted : Machine.counts (count * level) with
    | false => simp_all
    | true => cases stored : machine.stores (count * level).toNat <;> simp_all

/-- Nothing is wrong with any visited slot exactly if everything is placed, and all lines can be
indented inside calls that the stack holds. -/
theorem fault?_eq_none_iff :
    (∀ slot, Visits body slot → slot.fault? machine (some width) = none) ↔
      Placed body ∧ Countable width body ∧
        (∀ site, Visits body (.call site) → machine.holds site.calls = true) ∧
        ∀ site, Visits body (.line site) → machine.stores (width * site.level).toNat = true := by
  constructor
  · intro clean
    refine ⟨⟨fun role site held visited => ?_, fun site row visited => ?_⟩,
      fun site visited => ?_, fun site visited => ?_, fun site visited => ?_⟩
    · simpa [Slot.fault?] using clean _ visited
    · rintro rfl
      cases clean _ visited
    · exact (padFault?_eq_none_iff.mp (clean _ visited)).1
    · simpa [Slot.fault?] using clean _ visited
    · exact (padFault?_eq_none_iff.mp (clean _ visited)).2
  · rintro ⟨placed, countable, held, stored⟩ slot visited
    cases slot with
    | call site => exact if_pos (held site visited)
    | part role site held => exact if_pos (placed.parts role site held visited)
    | oneLine site row =>
      cases row with
      | nil => exact absurd rfl (placed.oneLines site [] visited)
      | cons first rest => rfl
    | line site =>
      exact padFault?_eq_none_iff.mpr ⟨countable site visited, stored site visited⟩

theorem explained_of_fault? {slot : Slot} {fault : Fault} (visited : Visits body slot)
    (wrong : slot.fault? machine (some width) = some fault) :
    Explained machine width body fault := by
  cases slot with
  | call site =>
    obtain ⟨full, same⟩ := Option.ite_none_left_eq_some.mp wrong
    cases same
    exact .exhausted visited (Bool.eq_false_iff.mpr full)
  | part role site held =>
    obtain ⟨other, same⟩ := Option.ite_none_left_eq_some.mp wrong
    cases same
    exact .part visited (Bool.eq_false_iff.mpr other)
  | oneLine site row =>
    cases row with
    | nil =>
      cases wrong
      exact .emptyBody visited
    | cons first rest => cases wrong
  | line site =>
    change padFault? machine (some width) site.level = some fault at wrong
    rcases cause_of_padFault? wrong with ⟨noWidth, -⟩ | ⟨count, isWidth, cause⟩
    · cases noWidth
    · cases isWidth
      rcases cause with ⟨rfl, uncounted⟩ | ⟨rfl, unstored⟩
      · exact .uncountable visited uncounted
      · exact .spaces visited unstored

/-- A draft is written exactly if it is laid out and its text can be stored. -/
theorem write_eq_ok_iff {width : Option Int} {text : String} :
    write machine width body = .ok text ↔
      ∃ rows, Draft.rows machine width body = .ok rows ∧ Layout.page (width.getD 0) rows = text ∧
        machine.stores text.length = true := by
  unfold write
  cases outcome : Draft.rows machine width body with
  | error fault => simp [bind, Except.bind]
  | ok rows =>
    simp only [bind, Except.bind, Except.ok.injEq, exists_eq_left']
    split
    · rename_i stored
      simp only [Except.ok.injEq]
      constructor
      · rintro rfl
        exact ⟨rfl, stored⟩
      · exact And.left
    · rename_i unstored
      simp only [reduceCtorEq, false_iff, not_and]
      rintro rfl
      exact unstored

theorem write_eq_error_iff {width : Option Int} {fault : Fault} :
    write machine width body = .error fault ↔
      Draft.rows machine width body = .error fault ∨
        fault = .unstorable ∧ ∃ rows, Draft.rows machine width body = .ok rows ∧
          machine.stores (Layout.page (width.getD 0) rows).length = false := by
  unfold write
  cases outcome : Draft.rows machine width body with
  | error fault => simp [bind, Except.bind]
  | ok rows =>
    simp only [bind, Except.bind, Except.ok.injEq, exists_eq_left', reduceCtorEq, false_or]
    cases machine.stores (Layout.page (width.getD 0) rows).length <;> simp [eq_comm]

/-- What is written has all its lines counted and stored, inside calls that the stack holds. -/
theorem room_of_write {text : String} (written : write machine (some width) body = .ok text) :
    Placed body ∧ Countable width body ∧ Room machine width body := by
  obtain ⟨rows, laidOut, isPage, stored⟩ := write_eq_ok_iff.mp written
  obtain ⟨placed, countable, held, lines⟩ :=
    fault?_eq_none_iff.mp ((checks_rows machine (some width) body).clean rows laidOut)
  refine ⟨placed, countable, held, lines, fun others laidOutAgain => ?_⟩
  obtain rfl := Except.ok.inj (laidOut.symm.trans laidOutAgain)
  rwa [show Layout.page width rows = text from isPage]

theorem explained_of_write {fault : Fault} (fails : write machine (some width) body = .error fault) :
    Explained machine width body fault := by
  rcases write_eq_error_iff.mp fails with stops | ⟨rfl, rows, laidOut, unstored⟩
  · obtain ⟨slot, visited, wrong⟩ := (checks_rows machine (some width) body).blames fault stops
    exact explained_of_fault? visited wrong
  · exact .text laidOut unstored

/-- A draft is written exactly if every slot that is visited holds what belongs there, a machine word
counts the spaces before every line that is visited, and the machine has room for the calls, the
lines and the text. If it is not written, something in a visited slot or the length of the text
explains why. -/
theorem write_eq_ok_iff_placed (machine : Machine) (width : Int) (body : List Draft) :
    ((∃ text, write machine (some width) body = .ok text) ↔
        Placed body ∧ Countable width body ∧ Room machine width body) ∧
      ∀ fault, write machine (some width) body = .error fault →
        Explained machine width body fault := by
  refine ⟨⟨?_, ?_⟩, fun fault => explained_of_write⟩
  · rintro ⟨text, written⟩
    exact room_of_write written
  rintro ⟨placed, countable, room⟩
  obtain ⟨rows, laidOut⟩ := (checks_rows machine (some width) body).exists_ok_iff.mpr
    (fault?_eq_none_iff.mpr ⟨placed, countable, room.calls, room.lines⟩)
  exact ⟨_, write_eq_ok_iff.mpr ⟨rows, laidOut, rfl, room.text rows laidOut⟩⟩

end Written

/-- A block whose parts are all in place cannot be written if the spaces before its line are not
countable, though their number is below zero and there is room for everything. -/
theorem write_placed_block_uncountable :
    Placed [.expression (.conditional false (.variable "a") [.expression (.variable "b")])] ∧
      write .roomy (some (-9223372036854775809))
          [.expression (.conditional false (.variable "a") [.expression (.variable "b")])] =
        .error .uncountable := by
  have laidOut : ∃ rows, Draft.rows .roomy (some 0)
      [.expression (.conditional false (.variable "a") [.expression (.variable "b")])] =
        .ok rows := ⟨_, rfl⟩
  exact ⟨(fault?_eq_none_iff.mp ((checks_rows _ _ _).exists_ok_iff.mp laidOut)).1, rfl⟩

end Parlance.Draft
