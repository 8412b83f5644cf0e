import Parlance.Proofs.Grammar.Slices
import Parlance.Proofs.Layout.RoundTrip

/-!
Contract: every program that is read is canonical.

A tree is canonical if it could be written down without further parentheses: operands bind at least
as tightly as the operators above them, the one-line forms hold short statements, names are names,
and rows of names are not empty. The types already say the rest: what can be assigned, and that a
one-line form has one statement in each branch. Owns: how tightly expressions bind, what it means
that a node is canonical, and the theorem for texts. Does not own: the rules of the grammar.
-/

namespace Parlance

variable {σ : Type}

/-! ## How tightly expressions bind -/

def BinaryOp.tightness : BinaryOp → Nat
  | .or => 0
  | .and => 1
  | .equal | .notEqual => 2
  | .greater | .greaterEqual | .less | .lessEqual => 3
  | .add | .subtract => 4
  | .multiply | .divide | .remainder => 5

def UnaryOp.tightness : UnaryOp → Nat
  | .not => 6
  | .minus => 7

/-- How tightly an expression binds. An `if` does not bind at all: it cannot be an operand. -/
def Expr.tightness? : Expr σ → Option Nat
  | .binary _ op _ _ => some op.tightness
  | .unary op _ _ => some op.tightness
  | .index _ _ _ => some 8
  | .access _ _ _ | .call _ _ _ => some 9
  | .ifLine _ _ _ | .ifLineElse _ _ _ _ | .ifBlock _ _ _ | .ifBlockElse _ _ _ _ => none
  | .number _ _ | .string _ _ _ | .boolean _ _ | .nil _ | .tuple _ _ | .array _ _ | .dictionary _ _
  | .variable _ _ | .path _ _ | .grouping _ _ | .closureLine _ _ _ | .closureBlock _ _ _ => some 10

/-- The expression can be an operand, and binds at least as tightly as the bound says. -/
def Expr.Binds (bound : Nat) (value : Expr σ) : Prop :=
  ∃ own ∈ value.tightness?, bound ≤ own

theorem Expr.Binds.weaken {value : Expr σ} {bound smaller : Nat} (binds : value.Binds bound)
    (atMost : smaller ≤ bound) :
    value.Binds smaller := by
  obtain ⟨own, isOwn, bounded⟩ := binds
  exact ⟨own, isOwn, Nat.le_trans atMost bounded⟩

/-- The two scales of binary operators run against each other. -/
theorem BinaryOp.tightness_add_looseness (op : BinaryOp) :
    op.tightness + op.looseness = BinaryOp.loosest := by
  cases op <;> rfl

/-! ## Canonical nodes -/

def AreNames (names : List String) : Prop :=
  names ≠ [] ∧ ∀ name ∈ names, IsName name

/-- The statement may stand in a one-line form. -/
def Stmt.IsShort : Stmt σ → Prop
  | .breakLoop _ | .continueLoop _ | .returnNothing _ | .returnValue _ _ | .assign _ _ _ _
  | .expression _ _ => True
  | _ => False

def Expr.Canonical : Expr σ → Prop
  | .number literal _ => Lexeme.Legible ⟨.number, literal, ""⟩
  | .string value quote _ => Lexeme.Legible ⟨.string, value, quote⟩
  | .variable name _ => IsName name
  | .path segments _ => 2 ≤ segments.length ∧ AreNames segments
  | .closureLine params body _ => AreNames params ∧ body.IsShort
  | .closureBlock params _ _ => AreNames params
  | .ifLine _ thenDo _ => thenDo.IsShort
  | .ifLineElse _ thenDo elseDo _ => thenDo.IsShort ∧ elseDo.IsShort
  | .unary op operand _ => operand.Binds op.tightness
  | .binary left op right _ => left.Binds op.tightness ∧ right.Binds (op.tightness + 1)
  | .index target _ _ => target.Binds 8
  | .access target member _ => target.Binds 9 ∧ IsName member
  | .call target _ _ => target.Binds 9
  | .boolean _ _ | .nil _ | .tuple _ _ | .array _ _ | .dictionary _ _ | .grouping _ _
  | .ifBlock _ _ _ | .ifBlockElse _ _ _ _ => True

def Stmt.Canonical : Stmt σ → Prop
  | .use path _ => AreNames path
  | .classBare name _ _ | .classFields name _ _ _ => IsName name
  | .methodValue _ name _ _ _ | .methodBlock _ name _ _ _ => IsName name
  | .forLoop bindings _ _ _ => AreNames bindings
  | .whileLoop _ _ _ | .breakLoop _ | .continueLoop _ | .returnNothing _ | .returnValue _ _
  | .assign _ _ _ _ | .expression _ _ => True

def Param.Canonical (param : Param σ) : Prop :=
  IsName param.name

def Entry.Canonical : Entry σ → Prop
  | .mk key _ _ => IsName key

def Node.Canonical : Node σ → Prop
  | .stmt inner => inner.Canonical
  | .expr inner => inner.Canonical
  | .param inner => inner.Canonical
  | .entry inner => inner.Canonical
  | .names several _ => AreNames several

/-! ## Marks do not matter -/

theorem Expr.tightness?_shape (value : Expr σ) : value.shape.tightness? = value.tightness? := by
  cases value <;> rfl

theorem Expr.binds_shape {bound : Nat} {value : Expr σ} :
    value.shape.Binds bound ↔ value.Binds bound := by
  rw [Expr.Binds, Expr.tightness?_shape, Expr.Binds]

theorem Stmt.isShort_shape {stmt : Stmt σ} : stmt.shape.IsShort ↔ stmt.IsShort := by
  cases stmt <;> rfl

theorem Expr.canonical_shape {value : Expr σ} : value.shape.Canonical ↔ value.Canonical := by
  cases value with
  | closureLine params body mark => exact and_congr_right fun _ => Stmt.isShort_shape
  | ifLine condition thenDo mark => exact Stmt.isShort_shape
  | ifLineElse condition thenDo elseDo mark =>
    exact and_congr Stmt.isShort_shape Stmt.isShort_shape
  | unary op operand mark => exact Expr.binds_shape
  | binary left op right mark => exact and_congr Expr.binds_shape Expr.binds_shape
  | index target place mark => exact Expr.binds_shape
  | access target member mark => exact and_congr_left fun _ => Expr.binds_shape
  | call target args mark => exact Expr.binds_shape
  | _ => rfl

theorem Stmt.canonical_shape {stmt : Stmt σ} : stmt.shape.Canonical ↔ stmt.Canonical := by
  cases stmt <;> rfl

theorem Param.canonical_shape {param : Param σ} : param.shape.Canonical ↔ param.Canonical := by
  cases param <;> rfl

theorem Entry.canonical_shape {entry : Entry σ} : entry.shape.Canonical ↔ entry.Canonical := by
  cases entry
  rfl

/-! ## Literals -/

namespace Lexeme.Legible

variable {word : Lexeme}

/-- The text of a number is enough to write it. -/
theorem number (legible : word.Legible) (isNumber : word.kind = .number) :
    Lexeme.Legible ⟨.number, word.text, ""⟩ := by
  obtain ⟨sign, text, isSign, numeral, same⟩ := legible.exists_number isNumber
  rw [same]
  exact .inr ⟨_, .number isSign numeral⟩

/-- The value and the quote of a string are enough to write it. -/
theorem string (legible : word.Legible) (isString : word.kind = .string) :
    Lexeme.Legible ⟨.string, word.text, word.quote⟩ :=
  isString ▸ legible

end Lexeme.Legible

/-! ## Canonical phrases -/

namespace Grammar

variable {levels : Nat} {words : List Lexeme} {next : Kind}

/-- The trees of the phrase bind as tightly as its place among the operators asks for. -/
def Phrase.Binds : (phrase : Phrase) → phrase.Tree Unit → Prop
  | .binary looseness, value => Expr.Binds (BinaryOp.loosest - looseness) value
  | .prefixed op, value => Expr.Binds op.tightness value
  | .indexed, value => Expr.Binds 8 value
  | .members, value => Expr.Binds 9 value
  | .primary, value => Expr.Binds 10 value
  | _, _ => True

theorem Derives.binds {phrase : Phrase} {tree : phrase.Tree Unit}
    (derives : Derives levels phrase words next tree) :
    phrase.Binds tree := by
  induction derives with
  | number | string | boolean | nil | name | path | grouping | tuple | emptyDictionary | dictionary
  | array | closureLine | closureBlock => exact ⟨10, rfl, Nat.le_refl _⟩
  | call | access => exact ⟨9, rfl, Nat.le_refl _⟩
  | index => exact ⟨8, rfl, Nat.le_refl _⟩
  | unary => exact ⟨_, rfl, Nat.le_refl _⟩
  | @binary _ looseness op _ _ _ _ _ _ _ _ rank _ _ _ =>
    have scales := op.tightness_add_looseness
    exact ⟨op.tightness, rfl, by omega⟩
  -- A rule that passes its operand on asks for less than the operand has.
  | ofPrimary _ ih | ofMembers _ ih
  | ofIndexed _ ih | ofSigned _ ih =>
    exact ih.weaken (by decide)
  | ofOperand _ ih => exact ih.weaken (by decide)
  | ofTighter _ ih => exact ih.weaken (by omega)
  | _ => trivial

theorem Derives.isShort {line : Bool} {stmt : Stmt Unit}
    (derives : Derives levels (.short line) words next stmt) :
    stmt.IsShort := by
  cases derives <;> trivial

/-- The tree that the phrase forms is canonical above its children. -/
def Phrase.Canonical : (phrase : Phrase) → phrase.Tree Unit → Prop
  | .statement, stmt => Stmt.Canonical stmt
  | .short _, stmt => Stmt.Canonical stmt
  | .expression _, value => Expr.Canonical value
  | .nested _, value => Expr.Canonical value
  | .binary _, value => Expr.Canonical value
  | .prefixed _, value => Expr.Canonical value
  | .indexed, value => Expr.Canonical value
  | .members, value => Expr.Canonical value
  | .primary, value => Expr.Canonical value
  | .item .entry, entry => Entry.Canonical entry
  | .item .param, param => Param.Canonical param
  | _, _ => True

/-- The tree that the grammar derives from words of a text is canonical above its children. -/
theorem Derives.canonical {phrase : Phrase} {tree : phrase.Tree Unit}
    (derives : Derives levels phrase words next tree) (legible : ∀ word ∈ words, word.Legible) :
    phrase.Canonical tree := by
  induction derives with
  | number isNumber => exact (legible _ (by simp)).number isNumber
  | string isString => exact (legible _ (by simp)).string isString
  | name isName => exact (legible _ (by simp)).isName isName
  | path joined several => exact ⟨several, joined.areNames legible⟩
  | closureLine _ joined _ inner _ =>
    exact ⟨joined.areNames fun word member => legible word (by simp [member]), inner.isShort⟩
  | closureBlock _ joined =>
    exact joined.areNames fun word member => legible word (by simp [member])
  | call target => exact target.binds
  | access target _ isName => exact ⟨target.binds, (legible _ (by simp)).isName isName⟩
  | index target => exact target.binds
  | unary _ inner => exact inner.binds
  | @binary _ looseness op _ _ _ _ left right first _ rank second =>
    have scales := op.tightness_add_looseness
    have tighter : op.tightness + 1 ≤ BinaryOp.loosest - looseness := by omega
    exact ⟨first.binds.weaken (by omega), second.binds.weaken tighter⟩
  | ifLine _ _ _ inner => exact inner.isShort
  | ifLineElse _ _ _ inner _ innerElse => exact ⟨inner.isShort, innerElse.isShort⟩
  | use _ joined => exact joined.areNames fun word member => legible word (by simp [member])
  | classBare _ isName => exact (legible _ (by simp)).isName isName
  | classFields _ isName => exact (legible _ (by simp)).isName isName
  | methodValue _ named => exact named.isName fun word member => legible word (by simp [member])
  | methodBlock _ named => exact named.isName fun word member => legible word (by simp [member])
  | forLoop _ joined => exact joined.areNames fun word member => legible word (by simp [member])
  | plainItem isName => exact (legible _ (by simp)).isName isName
  | defaultedItem isName => exact (legible _ (by simp)).isName isName
  | entryItem isKey => exact (legible _ (by simp)).isName isKey
  -- A rule that passes a tree on leaves it as it is.
  | nested _ ih | ofPrimary _ ih
  | ofMembers _ ih | ofIndexed _ ih
  | ofSigned _ ih | ofOperand _ ih
  | ofTighter _ ih | ofBinary _ ih
  | ofShort _ ih => exact ih legible
  | _ => trivial

theorem Forms.canonical {depth : Nat} {node : Node Span} (forms : Forms depth words node)
    (legible : ∀ word ∈ words, word.Legible) :
    node.Canonical := by
  cases node with
  | stmt inner =>
    obtain ⟨levels, -, derives⟩ := forms
    exact Stmt.canonical_shape.mp (derives.canonical legible)
  | expr inner =>
    obtain ⟨levels, -, derives⟩ := forms
    exact Expr.canonical_shape.mp (derives.canonical legible)
  | param inner =>
    obtain ⟨levels, derives⟩ := forms
    exact Param.canonical_shape.mp (derives.canonical legible)
  | entry inner =>
    obtain ⟨levels, derives⟩ := forms
    exact Entry.canonical_shape.mp (derives.canonical legible)
  | names several mark =>
    rcases forms with ⟨joined, -⟩ | ⟨levels, value, derives, isTarget⟩
    · exact joined.areNames legible
    · obtain ⟨filled, -, among⟩ := derives.names_of_target isTarget
      refine ⟨filled, fun name member => ?_⟩
      obtain ⟨word, inside, isName, rfl⟩ := among name member
      exact (legible word inside).isName isName

end Grammar

open Grammar

def Expr.isDifference : Expr σ → Bool
  | .binary _ .subtract _ _ => true
  | _ => false

theorem Program.exists_forms_of_ofText {limit : Limit} {source : String} {program : Program Span}
    {node : Node Span} (accepted : Program.ofText limit source = .ok program)
    (has : program.Has node) :
    ∃ depth words, Forms depth words node ∧ ∀ word ∈ words, word.Legible := by
  obtain ⟨rows, -⟩ := Program.rows_of_ofText accepted
  obtain ⟨front, row, back, tokens, fits⟩ := rows.fitsNode has
  cases fits with
  | mk quiet mark forms inner =>
    refine ⟨_, _, forms, fun word member => ?_⟩
    obtain ⟨token, inRow, rfl⟩ := List.mem_map.mp member
    exact (Reading.ofText_legible source token (by simp [tokens, inRow])).1

/-- Every node of a program that is read from a text is canonical. -/
theorem Program.ofText_canonical (limit : Limit) (source : String) (program : Program Span)
    (accepted : Program.ofText limit source = .ok program) (node : Node Span)
    (has : program.Has node) :
    node.Canonical := by
  obtain ⟨depth, words, forms, legible⟩ := Program.exists_forms_of_ofText accepted has
  exact forms.canonical legible

/-- A difference of a product and a name: both operands bind tightly enough. -/
theorem Program.canonical_difference :
    ∃ program left right mark,
      Program.ofText .standard "x = -a.b[0] * (c or d) - e\n" = .ok program ∧
        program.Has (.expr (.binary left .subtract right mark)) ∧
        left.Binds 4 ∧ right.Binds 5 := by
  have passes : (Program.ofText .standard "x = -a.b[0] * (c or d) - e\n").toOption.any
      (fun program => program.assigned?.any Expr.isDifference) = true := by
    decide +kernel
  obtain ⟨program, accepted, isAssign⟩ := Program.exists_of_any passes
  obtain ⟨value, has, isDifference⟩ := Program.exists_of_assigned? isAssign
  unfold Expr.isDifference at isDifference
  split at isDifference
  · rename_i left right mark
    obtain ⟨leftBinds, rightBinds⟩ := Program.ofText_canonical .standard _ program accepted _ has
    exact ⟨program, left, right, mark, accepted, has, leftBinds, rightBinds⟩
  · contradiction

end Parlance
