import Parlance.Proofs.Grammar.Inversion
import Parlance.Proofs.Layout.Printing

/-!
Contract: how the statements, blocks and lists of the grammar are printed.

One law for each rule: if the parts are printed, so is the whole. An assignment to several names is
printed without parentheses, whichever way it was written. Owns: the laws of short statements, of
statements that need lines of their own, of the lines of blocks and of the items of lists.
-/

namespace Parlance.Grammar

open Lexeme Layout

variable {levels : Nat} {next : Kind} {line : Bool}
variable {words head list : List Lexeme}
variable {word : Lexeme} {value assigned : Expr Unit} {op : AssignOp}

/-! ## Short statements -/

theorem reads_keyword (word : Keyword) : Layout.Reads [.word word.spelling] [.ofKeyword word] :=
  fun _ _ _ _ clear => .keyword word clear .nil

theorem printable_breakLoop : Printable levels (.short line) words next (.breakLoop ()) :=
  fun _ => ⟨_, reads_keyword .kwBreak, fun _ _ _ => .breakLoop rfl, by simp [Stmt.misplaced]⟩

theorem printable_continueLoop : Printable levels (.short line) words next (.continueLoop ()) :=
  fun _ => ⟨_, reads_keyword .kwContinue, fun _ _ _ => .continueLoop rfl, by simp [Stmt.misplaced]⟩

theorem printable_returnNothing (stops : stopsReturn next = true) :
    Printable levels (.short line) words next (.returnNothing ()) :=
  fun _ => ⟨_, reads_keyword .kwReturn, fun _ _ replaces =>
    .returnNothing rfl (replaces.stops stops), by simp [Stmt.misplaced]⟩

theorem printable_returnValue (inner : Printable levels (.nested false) words next value) :
    Printable levels (.short line) (word :: words) next (.returnValue value ()) := by
  intro level
  obtain ⟨printed, prints⟩ := inner level
  refine ⟨_, reads_returnValue prints.reads, fun placed after replaces => ?_, ?_⟩
  · exact .returnValue rfl (prints.derives placed after replaces)
  · have count := prints.parens
    simp [Stmt.misplaced] at count ⊢
    omega

def assignSymbol : AssignOp → Symbol
  | .set => .assign
  | .add => .plusAssign
  | .subtract => .minusAssign
  | .multiply => .starAssign
  | .divide => .slashAssign

theorem spaced_assignSymbol (op : AssignOp) : Spaced op.spelling (.ofSymbol (assignSymbol op)) := by
  intro width last layout words rest behind
  cases op <;> exact .symbolSpace _ behind

theorem spaced_equals : Spaced "=" (.ofSymbol .assign) :=
  spaced_assignSymbol .set

theorem ofKind?_assignSymbol (op : AssignOp) :
    AssignOp.ofKind? (.symbol (assignSymbol op)) = some op := by
  cases op <;> rfl

theorem kind_assignSymbol {kind : Kind} (isOp : AssignOp.ofKind? kind = some op) :
    kind = .symbol (assignSymbol op) := by
  unfold AssignOp.ofKind? at isOp
  split at isOp <;> cases isOp <;> rfl

theorem assignSymbol_starts (op : AssignOp) :
    (ofSymbol (assignSymbol op)).kind.endsOperand = false := by
  cases op <;> rfl

theorem assignSymbol_ne (op : AssignOp) : assignSymbol op ≠ .lparen := by
  cases op <;> simp [assignSymbol]

/-- A target that is no row of names is printed like the expression that was assigned. -/
theorem target_cases {target : Target Unit} (isTarget : assigned.toTarget? = some target) :
    (∃ names, target = .names names ()) ∨
      (∀ level, target.layout level = assigned.layout level) ∧
        ∀ line, target.misplaced line = assigned.misplaced false := by
  unfold Expr.toTarget? at isTarget
  split at isTarget
  · cases isTarget
    exact .inr ⟨fun _ => rfl, fun _ => rfl⟩
  · cases isTarget
    exact .inr ⟨fun _ => rfl, fun _ => rfl⟩
  · cases isTarget
    exact .inr ⟨fun _ => rfl, fun _ => rfl⟩
  · obtain ⟨names, -, rfl⟩ := Option.map_eq_some_iff.mp isTarget
    exact .inl ⟨names, rfl⟩
  · contradiction

theorem printable_assign {target : Target Unit}
    (first : Printable levels .indexed head word.kind assigned)
    (isTarget : assigned.toTarget? = some target) (isOp : AssignOp.ofKind? word.kind = some op)
    (second : Printable (levels + 1) (.nested false) words next value)
    (sameLayout : ∀ level, target.layout level = assigned.layout level)
    (sameCount : ∀ line, target.misplaced line = assigned.misplaced false) :
    Printable (levels + 1) (.short line) (head ++ word :: words) next
      (.assign target op value ()) := by
  intro level
  obtain ⟨before, printsFirst⟩ := first level
  obtain ⟨after, printsSecond⟩ := second level
  have readsTarget : (target.layout level).Reads before := sameLayout level ▸ printsFirst.reads
  refine ⟨_, reads_infixed (spaced_assignSymbol op) (assignSymbol_starts op) readsTarget
    printsSecond.reads,
    fun placed follower replaces => ?_, ?_⟩
  · simp only [Stmt.misplaced, sameCount, Nat.add_eq_zero_iff] at placed
    exact .assign (printsFirst.derives placed.1 _ (kind_assignSymbol isOp ▸ .refl _)) isTarget
      (ofKind?_assignSymbol op) (printsSecond.derives placed.2 follower replaces)
  · have countFirst := printsFirst.parens
    have countSecond := printsSecond.parens
    simp [assignSymbol_ne, Stmt.misplaced, sameCount] at countFirst countSecond ⊢
    omega

/-- Names are printed without parentheses. If they are misplaced, they were written in some. -/
theorem printable_assignNames {names : List String} (filled : names ≠ [])
    (areNames : ∀ name ∈ names, IsName name)
    (written : Target.misplaced line (.names names () : Target Unit) ≤ parens head)
    (inner : Printable levels (.nested false) words next value) :
    Printable levels (.short line) (head ++ word :: words) next
      (.assign (.names names ()) op value ()) := by
  intro level
  obtain ⟨printed, prints⟩ := inner level
  refine ⟨_, reads_infixed (spaced_assignSymbol op) (assignSymbol_starts op) (reads_names areNames)
    prints.reads,
    fun placed after replaces => ?_, ?_⟩
  · simp only [Stmt.misplaced, Nat.add_eq_zero_iff] at placed
    obtain ⟨placedTarget, placedValue⟩ := placed
    have allowed : (line && decide (2 ≤ names.length)) = true := by
      by_contra refused
      rw [Target.misplaced, if_neg refused] at placedTarget
      cases placedTarget
    obtain ⟨rfl, several⟩ := Bool.and_eq_true_iff.mp allowed
    exact .assignNames (joined_commaRow filled) (of_decide_eq_true several)
      (ofKind?_assignSymbol op) (prints.derives placedValue after replaces)
  · have count := prints.parens
    simp [assignSymbol_ne, parens_names, Stmt.misplaced] at count ⊢
    omega

/-- Names that were assigned as a tuple were written in parentheses. -/
theorem printable_assignTuple {assignedLevels : Nat} {names : List String}
    (first : Derives assignedLevels .indexed head word.kind assigned)
    (isTarget : assigned.toTarget? = some (.names names ())) (legible : ∀ word ∈ head, word.Legible)
    (inner : Printable levels (.nested false) words next value) :
    Printable levels (.short line) (head ++ word :: words) next
      (.assign (.names names ()) op value ()) := by
  obtain ⟨filled, ⟨opening, list, rfl, opens⟩, found⟩ := first.names_of_target isTarget
  refine printable_assignNames filled (fun name member => ?_) ?_ inner
  · obtain ⟨other, inside, isName, rfl⟩ := found name member
    exact (legible other inside).isName isName
  · rw [parens_cons, if_pos opens, Target.misplaced]
    split <;> omega

/-! ## Statements that need lines of their own -/

section Statements

variable {opening name bracket middle equals lineEnd closing : Lexeme}
variable {body : List (Stmt Unit)} {fields : List (Param Unit)} {divided : Bool}

theorem printable_use {path : List String} {joints : List Kind} (joined : Joined joints words path)
    (legible : ∀ word ∈ words, word.Legible) :
    Printable levels .statement (opening :: words) next (.use path ()) := by
  obtain ⟨filled, areNames⟩ := joined.areNames legible
  exact fun _ => ⟨_, reads_use areNames, fun _ _ _ => .use rfl (joined_pathRow (by decide) filled),
    by simp [Stmt.misplaced, parens_pathRow]⟩

theorem printable_classBare (isName : IsName name.text)
    (inner : Printable levels (.nestedLines .classBody) words (.keyword .kwEnd) body) :
    Printable levels .statement (opening :: name :: lineEnd :: (words ++ [closing])) next
      (.classBare name.text body ()) := by
  intro level
  obtain ⟨rows, reads, derives, count⟩ := inner (level + 1)
  refine ⟨_, reads_block level (reads_classHead isName) reads, fun placed after _ => ?_, ?_⟩
  · exact .classBare rfl rfl rfl (derives placed) rfl
  · simp [Stmt.misplaced] at count ⊢
    omega

theorem printable_classFields (isName : IsName name.text)
    (isBracket : bracket.kind = .symbol .lparen)
    (params : Printable levels (.items .param .round) list .newline (fields, divided))
    (inner : Printable levels (.nestedLines .classBody) words (.keyword .kwEnd) body) :
    Printable levels .statement
      (opening :: name :: bracket :: (list ++ lineEnd :: (words ++ [closing]))) next
      (.classFields name.text fields body ()) := by
  intro level
  obtain ⟨fieldRows, readsFields, derivesFields, countFields⟩ := params.items level
  obtain ⟨rows, reads, derives, count⟩ := inner (level + 1)
  have whole := reads_block level (reads_classFieldsHead isName readsFields) reads
  simp only [List.cons_append] at whole
  refine ⟨_, whole, fun placed after _ => ?_, ?_⟩
  · obtain ⟨placedFields, placedBody⟩ := Nat.add_eq_zero_iff.mp placed
    exact .classFields rfl rfl rfl (derivesFields placedFields _) rfl (derives placedBody) rfl
  · simp [isBracket, Part.misplacedAll, Stmt.misplaced] at countFields count ⊢
    omega

variable {shared : Bool} {methodName : String}

theorem MethodName.isName (named : MethodName shared head methodName)
    (legible : ∀ word ∈ head, word.Legible) :
    IsName methodName := by
  cases named with
  | own isName => exact (legible _ (by simp)).isName isName
  | shared isOwner isSelf isColons isName => exact (legible _ (by simp)).isName isName

theorem methodName_methodRow (shared : Bool) (name : String) :
    MethodName shared (methodRow shared name) name := by
  cases shared with
  | false => exact .own rfl
  | true => exact .shared rfl rfl rfl rfl

theorem parens_methodRow (shared : Bool) (name : String) : parens (methodRow shared name) = 0 := by
  cases shared <;> simp [methodRow]

theorem printable_methodValue {value : Expr Unit} (isName : IsName methodName)
    (isBracket : bracket.kind = .symbol .lparen)
    (params : Printable levels (.items .param .round) list (.symbol .assign) (fields, divided))
    (inner : Printable levels (.nested false) words next value) :
    Printable levels .statement
      (opening :: (head ++ bracket :: (list ++ equals :: words))) next
      (.methodValue shared methodName fields value ()) := by
  intro level
  obtain ⟨fieldRows, readsFields, derivesFields, countFields⟩ := params.items level
  obtain ⟨printed, prints⟩ := inner level
  have whole := reads_infixed spaced_equals rfl
    (reads_methodHead shared isName readsFields) prints.reads
  rw [List.cons_append, List.append_assoc, List.cons_append] at whole
  refine ⟨_, whole, fun placed after replaces => ?_, ?_⟩
  · obtain ⟨placedFields, placedValue⟩ := Nat.add_eq_zero_iff.mp placed
    exact .methodValue rfl (methodName_methodRow shared methodName) rfl
      (derivesFields placedFields _) rfl (prints.derives placedValue after replaces)
  · have count := prints.parens
    simp [isBracket, parens_methodRow, Part.misplacedAll, Stmt.misplaced] at countFields count ⊢
    omega

theorem printable_methodBlock (isName : IsName methodName)
    (isBracket : bracket.kind = .symbol .lparen)
    (params : Printable levels (.items .param .round) list .newline (fields, divided))
    (inner : Printable levels (.nestedLines .methodBody) words (.keyword .kwEnd) body) :
    Printable levels .statement
      (opening :: (head ++ bracket :: (list ++ lineEnd :: (words ++ [closing])))) next
      (.methodBlock shared methodName fields body ()) := by
  intro level
  obtain ⟨fieldRows, readsFields, derivesFields, countFields⟩ := params.items level
  obtain ⟨rows, reads, derives, count⟩ := inner (level + 1)
  have whole := reads_block level (reads_methodHead shared isName readsFields) reads
  rw [List.cons_append, List.append_assoc, List.cons_append] at whole
  refine ⟨_, whole, fun placed after _ => ?_, ?_⟩
  · obtain ⟨placedFields, placedBody⟩ := Nat.add_eq_zero_iff.mp placed
    exact .methodBlock rfl (methodName_methodRow shared methodName) rfl
      (derivesFields placedFields _) rfl (derives placedBody) rfl
  · simp [isBracket, parens_methodRow, Part.misplacedAll, Stmt.misplaced] at countFields count ⊢
    omega

theorem printable_forLoop {bindings : List String} {source : Expr Unit}
    (joined : Joined [.symbol .comma] head bindings) (legible : ∀ word ∈ head, word.Legible)
    (elements : Printable levels (.nested false) list .newline source)
    (inner : Printable levels (.nestedLines .forBody) words (.keyword .kwEnd) body) :
    Printable levels .statement
      (opening :: (head ++ middle :: (list ++ lineEnd :: (words ++ [closing])))) next
      (.forLoop bindings source body ()) := by
  intro level
  obtain ⟨filled, areNames⟩ := joined.areNames legible
  obtain ⟨printed, prints⟩ := elements level
  obtain ⟨rows, reads, derives, count⟩ := inner (level + 1)
  have whole := reads_block level (reads_forHead areNames prints.reads) reads
  simp only [List.cons_append, List.append_assoc] at whole
  refine ⟨_, whole, fun placed after _ => ?_, ?_⟩
  · obtain ⟨placedSource, placedBody⟩ := Nat.add_eq_zero_iff.mp placed
    exact .forLoop rfl (joined_commaRow filled) rfl (prints.derives placedSource _ (.refl _)) rfl
      (derives placedBody) rfl
  · have countSource := prints.parens
    simp [parens_names, Stmt.misplaced] at countSource count ⊢
    omega

theorem printable_whileLoop {condition : Expr Unit}
    (test : Printable levels (.nested false) head .newline condition)
    (inner : Printable levels (.nestedLines .whileBody) words (.keyword .kwEnd) body) :
    Printable levels .statement
      (opening :: (head ++ lineEnd :: (words ++ [closing]))) next
      (.whileLoop condition body ()) := by
  intro level
  obtain ⟨printed, prints⟩ := test level
  obtain ⟨rows, reads, derives, count⟩ := inner (level + 1)
  refine ⟨_, reads_block level (reads_whileHead prints.reads) reads, fun placed after _ => ?_, ?_⟩
  · obtain ⟨placedTest, placedBody⟩ := Nat.add_eq_zero_iff.mp placed
    exact .whileLoop rfl (prints.derives placedTest _ (.refl _)) rfl (derives placedBody) rfl
  · have countTest := prints.parens
    simp [Stmt.misplaced] at countTest count ⊢
    omega

end Statements

/-! ## Lines of blocks -/

section Lines

variable {block : Block} {lineEnd : Lexeme} {first : Stmt Unit} {body : List (Stmt Unit)}

theorem printable_nestedLines (derives : Derives levels (.lines block) words next body)
    (inner : Printable levels (.lines block) words next body) :
    Printable (levels + 1) (.nestedLines block) words next body := by
  intro level
  obtain ⟨rows, each, count⟩ := inner level
  refine ⟨rows, reads_lines each, fun placed => ?_, by simpa using count⟩
  exact .nestedLines (derives_lines each placed (derives.endsAt block (.inl rfl)))

theorem printable_noLine : Printable levels (.lines block) words next [] :=
  fun _ => ⟨[], .nil, by simp [Stmt.misplacedAll]⟩

theorem printable_emptyLine (rest : Printable levels (.lines block) words next body) :
    Printable levels (.lines block) (lineEnd :: words) next body := by
  intro level
  obtain ⟨rows, each, count⟩ := rest level
  refine ⟨rows, each, ?_⟩
  simp only [parens_cons]
  omega

theorem printable_line (inner : Printable levels .statement head .newline first)
    (rest : Printable levels (.lines block) words next body) :
    Printable levels (.lines block) (head ++ lineEnd :: words) next (first :: body) := by
  intro level
  obtain ⟨printed, prints⟩ := inner level
  obtain ⟨rows, each, count⟩ := rest level
  refine ⟨printed :: rows, .cons ⟨prints.reads, fun placed => ?_⟩ each, ?_⟩
  · exact prints.derives placed _ (.refl _)
  · have countFirst := prints.parens
    simp [Stmt.misplacedAll] at countFirst count ⊢
    omega

end Lines

/-! ## Items of lists -/

section Items

variable {part : Part} {bracket : Bracket}

theorem printable_entryItem {key colon : Lexeme} {value : Expr Unit} (isName : IsName key.text)
    (inner : Printable levels (.nested false) words next value) :
    Printable levels (.item .entry) (key :: colon :: words) next
      (.mk key.text value () : Entry Unit) := by
  intro level
  obtain ⟨printed, prints⟩ := inner level
  refine ⟨_, reads_entry isName prints.reads, fun placed after replaces => ?_, ?_⟩
  · exact .entryItem rfl rfl (prints.derives placed after replaces)
  · have count := prints.parens
    simp [Part.misplaced, Entry.misplaced] at count ⊢
    omega

theorem printable_plainItem {name : Lexeme} (isName : IsName name.text) :
    Printable levels (.item .param) [name] next (.plain name.text () : Param Unit) :=
  fun _ => ⟨_, reads_name isName, fun _ _ _ => .plainItem rfl,
    by simp [Part.misplaced, Param.misplaced]⟩

theorem printable_defaultedItem {name equals : Lexeme} {value : Expr Unit}
    (isName : IsName name.text) (inner : Printable levels (.nested false) words next value) :
    Printable levels (.item .param) (name :: equals :: words) next
      (.defaulted name.text value () : Param Unit) := by
  intro level
  obtain ⟨printed, prints⟩ := inner level
  refine ⟨_, reads_infixed spaced_equals rfl (reads_name isName) prints.reads,
    fun placed after replaces => ?_, ?_⟩
  · exact .defaultedItem rfl rfl (prints.derives placed after replaces)
  · have count := prints.parens
    simp [Part.misplaced, Param.misplaced] at count ⊢
    omega

/-- Behind an item that is printed, a comma or a closing bracket can stand. -/
theorem PrintsAs.item {level : Nat} {value : part.Tree Unit} {printed : List Lexeme}
    (prints : PrintsAs levels (.item part) words next value (part.layout level value)
      (part.misplaced value) printed) :
    ItemPrints levels level part value printed :=
  ⟨prints.reads, fun placed after closes => prints.derives placed after (.ofItem closes)⟩

theorem printable_noItem {divided : Bool} :
    Printable levels (.items part bracket) words next ([], divided) :=
  fun _ => ⟨[], .nil, by simp⟩

theorem printable_lastItem {front back : List Lexeme} {behind : Kind} {value : part.Tree Unit}
    {divided : Bool} (inner : Printable levels (.item part) words behind value) :
    Printable levels (.items part bracket) (front ++ (words ++ back)) next ([value], divided) := by
  intro level
  obtain ⟨printed, prints⟩ := inner level
  refine ⟨[printed], .cons prints.item .nil, ?_⟩
  have count := prints.parens
  simp at count ⊢
  omega

theorem printable_moreItems {front back rest : List Lexeme} {comma : Lexeme} {behind : Kind}
    {value : part.Tree Unit} {values : List (part.Tree Unit)} {divided : Bool}
    (inner : Printable levels (.item part) words behind value)
    (others : Printable levels (.items part bracket) rest next (values, divided)) :
    Printable levels (.items part bracket) (front ++ (words ++ (back ++ comma :: rest))) next
      (value :: values, true) := by
  intro level
  obtain ⟨printed, prints⟩ := inner level
  obtain ⟨rows, each, countRest⟩ := others level
  refine ⟨printed :: rows, .cons prints.item each, ?_⟩
  have count := prints.parens
  simp at count countRest ⊢
  omega

end Items

end Parlance.Grammar
