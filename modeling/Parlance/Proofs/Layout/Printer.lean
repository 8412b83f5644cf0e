import Parlance.Layout.Program
import Parlance.Proofs.Layout.Slots

/-!
Contract: what the printer makes of a program.

On a program the printer lays out what the program's own layout says, or it stops because the stack
is full or because a line of that layout cannot be indented. Owns: this fact for every construct, and
from it when a program is written and that the text is its canonical text. Does not own: which calls
the printer opens.
-/

namespace Parlance

variable {level : Nat}

theorem Layout.line_mem_commas {layouts : List Layout} :
    .line level ∈ commas layouts ↔ ∃ layout ∈ layouts, .line level ∈ layout := by
  induction layouts with
  | nil => simp [commas]
  | cons first rest ih =>
    cases rest with
    | nil => simp [commas]
    | cons second others =>
      rw [commas, List.mem_append, List.mem_append, ih]
      · simp
      · simp

theorem Layout.line_mem_tuple {layouts : List Layout} :
    .line level ∈ tuple layouts ↔ ∃ layout ∈ layouts, .line level ∈ layout := by
  unfold tuple
  split
  · simp [parenthesized]
  · simp [parenthesized, line_mem_commas]

theorem Layout.line_mem_dictionary {layouts : List Layout} :
    .line level ∈ dictionary layouts ↔ ∃ layout ∈ layouts, .line level ∈ layout := by
  unfold dictionary
  split
  · simp [bracketed]
  · simp [bracketed, line_mem_commas]

theorem Layout.line_not_mem_names (row : List String) : .line level ∉ names row := by
  simp [names, line_mem_commas]

theorem Layout.line_not_mem_path (row : List String) : .line level ∉ path row := by
  induction row with
  | nil => simp [path]
  | cons first rest ih =>
    cases rest with
    | nil => simp [path]
    | cons second others => simpa [path] using ih

theorem Layout.line_mem_unary {op : UnaryOp} {operand : Layout} :
    .line level ∈ unary op operand ↔ .line level ∈ operand := by
  unfold unary
  split
  · simp
  · split <;> simp

theorem Layout.line_mem_lines {inner : Nat} {body : List Layout} :
    .line level ∈ lines inner body ↔ ∃ layout ∈ body, level = inner ∨ .line level ∈ layout := by
  simp [lines]

theorem Layout.line_mem_block {outer : Nat} {header : Layout} {body : List Layout} :
    .line level ∈ block outer header body ↔
      .line level ∈ header ∨ .line level ∈ lines (outer + 1) body ∨ level = outer := by
  simp [block]

theorem Layout.line_not_mem_closureHead (params : List String) :
    .line level ∉ closureHead params := by
  simp [closureHead, line_not_mem_names]

theorem Layout.line_mem_methodHead {shared : Bool} {name : String} {params : List Layout} :
    .line level ∈ methodHead shared name params ↔ ∃ layout ∈ params, .line level ∈ layout := by
  cases shared <;> simp [methodHead, parenthesized, line_mem_commas]

namespace Draft

/-- A run of the printer that lays out a value with lines of the given levels: it succeeds with this
value only, and only if all the lines can be indented, and otherwise stops because the stack is full
or because one of the lines cannot be indented. -/
structure Prints (machine : Machine) (width : Option Int) {α : Type} (run : Except Fault α)
    (value : α) (lines : Nat → Prop) : Prop where
  ok : ∀ other, run = .ok other →
    other = value ∧ ∀ level, lines level → padFault? machine width level = none
  error : ∀ fault, run = .error fault →
    fault = .exhausted ∨ ∃ level, lines level ∧ padFault? machine width level = some fault

abbrev PrintsAll (machine : Machine) (width : Option Int) (run : Except Fault (List Layout))
    (layouts : List Layout) : Prop :=
  Prints machine width run layouts fun level => ∃ layout ∈ layouts, .line level ∈ layout

namespace Prints

variable {machine : Machine} {width : Option Int} {α β : Type} {run : Except Fault α} {value : α}
variable {lines more all : Nat → Prop}

theorem pure (value : α) (flat : ∀ level, ¬ lines level) :
    Prints machine width (.ok value : Except Fault α) value lines where
  ok _ same := ⟨(Except.ok.inj same).symm, fun level isLine => absurd isLine (flat level)⟩
  error _ fails := by cases fails

theorem bind {next : α → Except Fault β} {result : β} (first : Prints machine width run value lines)
    (second : Prints machine width (next value) result more)
    (union : ∀ level, all level ↔ lines level ∨ more level) :
    Prints machine width (run >>= next) result all := by
  cases outcome : run with
  | error cause =>
    refine ⟨fun other succeeds => (by cases succeeds), fun fault fails => ?_⟩
    obtain rfl : cause = fault := Except.error.inj fails
    refine (first.error cause outcome).imp_right fun found => ?_
    obtain ⟨level, isLine, wrong⟩ := found
    exact ⟨level, (union level).mpr (.inl isLine), wrong⟩
  | ok middle =>
    obtain ⟨rfl, clean⟩ := first.ok middle outcome
    refine ⟨fun other succeeds => ?_, fun fault fails => ?_⟩
    · obtain ⟨same, cleanNext⟩ := second.ok other succeeds
      exact ⟨same, fun level isLine => ((union level).mp isLine).elim (clean level) (cleanNext level)⟩
    · refine (second.error fault fails).imp_right fun found => ?_
      obtain ⟨level, isLine, wrong⟩ := found
      exact ⟨level, (union level).mpr (.inr isLine), wrong⟩

theorem map (first : Prints machine width run value lines) (f : α → β)
    (same : ∀ level, all level ↔ lines level) :
    Prints machine width (run >>= fun value => Pure.pure (f value)) (f value) all :=
  first.bind (.pure (f value) fun _ => not_false) (by simpa using same)

theorem opens (site : Site) (calls : List Call) (rest : Prints machine width run value lines) :
    Prints machine width (Draft.opens machine site calls >>= fun _ => run) value lines := by
  have opened : Prints machine width (Draft.opens machine site calls) () fun _ => False := by
    induction calls generalizing site with
    | nil => exact .pure () fun _ => not_false
    | cons next further ih =>
      unfold Draft.opens
      split
      · exact ih (site.enter next)
      · refine ⟨fun other succeeds => (by cases succeeds), fun fault fails => .inl ?_⟩
        exact (Except.error.inj fails).symm
  exact opened.bind rest (by simp)

theorem indent (site : Site) :
    Prints machine width (Draft.indent machine width site) () (· = site.level) := by
  refine .opens site [.pad] ?_
  cases outcome : padFault? machine width site.level with
  | none => exact ⟨fun _ _ => ⟨rfl, fun level same => same ▸ outcome⟩, fun _ fails => by cases fails⟩
  | some fault =>
    refine ⟨fun other succeeds => (by cases succeeds), fun cause fails => .inr ?_⟩
    obtain rfl : fault = cause := Except.error.inj fails
    exact ⟨site.level, rfl, outcome⟩

end Prints

@[simp]
theorem Site.level_enter (site : Site) (next : Call) : (site.enter next).level = site.level := rfl

@[simp]
theorem Site.level_through (site : Site) (calls : List Call) :
    (site.through calls).level = site.level := by
  induction calls generalizing site with
  | nil => rfl
  | cons next rest ih => exact ih (site.enter next)

section Constructs

variable {σ : Type} (machine : Machine) (width : Option Int)

mutual

theorem prints_expr (walked : Option Call) (outer : Site) (value : Expr σ) :
    Prints machine width (expressionLayout machine width walked outer value.draft)
      (value.layout outer.level) (.line · ∈ value.layout outer.level) := by
  unfold expressionLayout
  refine .opens outer _ ?_
  rw [← Site.level_through outer (value.draft.visiting walked)]
  generalize outer.through (value.draft.visiting walked) = site
  cases value with
  | number | string | nil | «variable» => exact .pure _ (by simp [Expr.layout])
  | boolean => exact .pure _ (by simp [Expr.layout, Layout.boolean])
  | path => exact .pure _ (by simp [Expr.layout, Layout.line_not_mem_path])
  | tuple elements =>
    exact .opens site _ ((prints_exprs _ elements).map _ fun _ => Layout.line_mem_tuple)
  | array elements =>
    exact .opens site _ ((prints_exprs _ elements).map _
      (by simp [Expr.layout, Layout.bracketed, Layout.line_mem_commas]))
  | dictionary entries =>
    exact .opens site _ ((prints_entries _ entries).map _ fun _ => Layout.line_mem_dictionary)
  | grouping inner =>
    exact (prints_expr none site inner).map _ (by simp [Expr.layout, Layout.parenthesized])
  | closureLine params body =>
    exact (prints_stmt site body).map _
      (by simp [Expr.layout, Layout.closureLine, Layout.line_not_mem_closureHead])
  | closureBlock params body =>
    exact .opens site _ ((prints_lines (site.enter .block) body).map _
      (by simp [Expr.layout, Layout.closureBlock, Layout.line_mem_block,
        Layout.line_not_mem_closureHead]))
  | ifLine condition thenDo =>
    exact (prints_expr none site condition).bind ((prints_stmt site thenDo).map _ fun _ => .rfl)
      (by simp [Expr.layout, Layout.ifLine])
  | ifLineElse condition thenDo elseDo =>
    exact (prints_expr none site condition).bind ((prints_stmt site thenDo).bind
      ((prints_stmt site elseDo).map _ fun _ => .rfl) fun _ => .rfl)
      (by simp [Expr.layout, Layout.ifLineElse, Layout.ifLine])
  | ifBlock condition thenDo =>
    exact (prints_expr none site condition).bind (.opens site _
      ((prints_lines site thenDo).map _ fun _ => .rfl))
      (by simp [Expr.layout, Layout.ifBlock, Layout.line_mem_block])
  | ifBlockElse condition thenDo elseDo =>
    exact (prints_expr none site condition).bind (.opens site _ ((prints_lines site thenDo).bind
      (.opens site _ ((prints_lines site elseDo).map _ fun _ => .rfl)) fun _ => .rfl))
      (by simp [Expr.layout, Layout.ifBlockElse, Layout.line_mem_block, Layout.line_mem_lines,
        or_assoc])
  | unary op operand =>
    exact (prints_expr _ site operand).map _ fun _ => Layout.line_mem_unary
  | binary left op right =>
    exact (prints_expr _ site left).bind ((prints_expr none site right).map _ fun _ => .rfl)
      (by simp [Expr.layout, Layout.infixed])
  | index target place =>
    exact (prints_expr none site place).bind ((prints_expr _ site target).map _ fun _ => .rfl)
      (by simp [Expr.layout, Layout.index, Layout.bracketed, or_comm])
  | access target member =>
    exact (prints_expr _ site target).map _ (by simp [Expr.layout, Layout.access])
  | call target args =>
    exact .opens site _ ((prints_exprs _ args).bind
      ((prints_expr _ site target).map _ fun _ => .rfl)
      (by simp [Expr.layout, Layout.call, Layout.parenthesized, Layout.line_mem_commas,
        or_comm]))

theorem prints_exprs (site : Site) (values : List (Expr σ)) :
    PrintsAll machine width (expressionLayouts machine width site (Expr.drafts values))
      (Expr.layouts site.level values) := by
  cases values with
  | nil => exact .pure [] (by simp [Expr.layouts])
  | cons first rest =>
    exact (prints_expr none site first).bind ((prints_exprs site rest).map _ fun _ => .rfl)
      (by simp [Expr.layouts])

theorem prints_entries (site : Site) (entries : List (Entry σ)) :
    PrintsAll machine width (entryLayouts machine width site (Entry.drafts entries))
      (Entry.layouts site.level entries) := by
  cases entries with
  | nil => exact .pure [] (by simp [Entry.layouts])
  | cons first rest =>
    cases first with
    | mk key value =>
      exact (prints_expr none site value).bind ((prints_entries site rest).map _ fun _ => .rfl)
        (by simp [Entry.layouts, Entry.layout, Layout.entry])

theorem prints_params (site : Site) (params : List (Param σ)) :
    PrintsAll machine width (paramLayouts machine width site (Param.drafts params))
      (Param.layouts site.level params) := by
  cases params with
  | nil => exact .pure [] (by simp [Param.layouts])
  | cons first rest =>
    have following := prints_params site rest
    cases first with
    | plain name => exact following.map _ (by simp [Param.layouts, Param.layout])
    | defaulted name value =>
      have given := prints_expr none site value
      cases value <;>
      exact given.bind (following.map _ fun _ => .rfl)
        (by simp [Param.layouts, Param.layout, Layout.defaulted, Layout.infixed])

theorem prints_stmt (outer : Site) (stmt : Stmt σ) :
    Prints machine width (statementLayout machine width outer stmt.draft)
      (stmt.layout outer.level) (.line · ∈ stmt.layout outer.level) := by
  unfold statementLayout
  refine .opens outer _ ?_
  rw [← Site.level_through outer [.statement]]
  generalize isSite : outer.enter .statement = site
  rw [show outer.through [.statement] = site from isSite]
  cases stmt with
  | breakLoop | continueLoop | returnNothing => exact .pure _ (by simp [Stmt.layout])
  | use path =>
    exact .opens site _ (.pure _ (by simp [Stmt.layout, Layout.use, Layout.line_not_mem_path]))
  | classBare name body =>
    exact .opens site _ ((prints_lines (site.enter .block) body).map _
      (by simp [Stmt.layout, Layout.line_mem_block, Layout.classHead]))
  | classFields name fields body =>
    exact .opens site _ ((prints_params (site.enter .params) fields).bind (.opens site _
      ((prints_lines (site.enter .block) body).map _ fun _ => .rfl))
      (by simp [Stmt.layout, Layout.line_mem_block, Layout.classFieldsHead, Layout.classHead,
        Layout.parenthesized, Layout.line_mem_commas]))
  | methodValue shared name params value =>
    have given := prints_expr none (site.enter .method) value
    have taken := prints_params (site.through [.method, .params]) params
    cases value <;>
    exact .opens site _ (taken.bind (given.map _ fun _ => .rfl)
      (by simp [Stmt.layout, Layout.infixed, Layout.line_mem_methodHead]))
  | methodBlock shared name params body =>
    exact .opens site _ ((prints_params (site.through [.method, .params]) params).bind
      (.opens _ _ ((prints_lines (site.through [.method, .block]) body).map _ fun _ => .rfl))
      (by simp [Stmt.layout, Layout.line_mem_block, Layout.line_mem_methodHead]))
  | forLoop bindings source body =>
    exact (prints_expr none site source).bind (.opens site _
      ((prints_lines (site.enter .block) body).map _ fun _ => .rfl))
      (by simp [Stmt.layout, Layout.line_mem_block, Layout.forHead, Layout.line_not_mem_names])
  | whileLoop condition body =>
    exact (prints_expr none site condition).bind (.opens site _
      ((prints_lines (site.enter .block) body).map _ fun _ => .rfl))
      (by simp [Stmt.layout, Layout.line_mem_block, Layout.whileHead])
  | returnValue value =>
    have given := prints_expr none site value
    cases value <;> exact given.map _ (by simp [Stmt.layout, Layout.returnValue])
  | assign target op value =>
    have assigned := prints_expr none site value
    have own := prints_target (site.enter .target) target
    cases target with
    | names targets =>
      exact .opens site _ (assigned.map _
        (by simp [Stmt.layout, Target.layout, Layout.infixed, Layout.line_not_mem_names]))
    | _ =>
      exact .opens site _ ((own fun _ _ => nofun).bind (assigned.map _ fun _ => .rfl)
        (by simp [Stmt.layout, Layout.infixed]))
  | expression value => exact prints_expr none site value

theorem prints_target (outer : Site) (target : Target σ)
    (single : ∀ names mark, target ≠ .names names mark) :
    Prints machine width (expressionLayout machine width none outer target.draft)
      (target.layout outer.level) (.line · ∈ target.layout outer.level) := by
  unfold expressionLayout
  refine .opens outer _ ?_
  rw [← Site.level_through outer (target.draft.visiting none)]
  generalize outer.through (target.draft.visiting none) = site
  cases target with
  | «variable» => exact .pure _ (by simp [Target.layout])
  | access target member =>
    exact (prints_expr _ site target).map _ (by simp [Target.layout, Layout.access])
  | index target place =>
    exact (prints_expr none site place).bind ((prints_expr _ site target).map _ fun _ => .rfl)
      (by simp [Target.layout, Layout.index, Layout.bracketed, or_comm])
  | names names mark => exact absurd rfl (single names mark)

theorem prints_lines (site : Site) (body : List (Stmt σ)) :
    Prints machine width (lineLayouts machine width site (Stmt.drafts body))
      (Stmt.layouts (site.level + 1) body) fun level =>
        .line level ∈ Layout.lines (site.level + 1) (Stmt.layouts (site.level + 1) body) ∨
          level = site.level := by
  cases body with
  | nil =>
    exact (Prints.indent site).map (fun _ => []) (by simp [Stmt.layouts, Layout.lines])
  | cons first rest =>
    exact (Prints.indent site.row).bind ((prints_stmt site.row first).bind
      ((prints_lines site rest).map _ fun _ => .rfl) fun _ => .rfl)
      (by simp [Stmt.layouts, Layout.lines, Site.row, or_assoc])

end

end Constructs

end Draft

/-! ## Programs -/

open Draft

section Programs

variable {σ : Type} {machine : Machine} {width : Option Int}

theorem Stmt.declares_draft (stmt : Stmt σ) : stmt.draft.declares = stmt.declares := by
  cases stmt <;> rfl

theorem Program.rows_cons (first : Stmt σ) (rest : List (Stmt σ)) (mark : σ) :
    Program.rows ⟨first :: rest, mark⟩ =
      ⟨first.draft.declares, first.layout 0⟩ :: Program.rows ⟨rest, mark⟩ := by
  rw [Stmt.declares_draft]
  rfl

theorem prints_laterRows (calls : List Call) (body : List (Stmt σ)) (mark : σ) :
    Prints machine width (laterRows machine width ⟨0, calls⟩ (Stmt.drafts body))
      (Program.rows ⟨body, mark⟩) fun level =>
        ∃ row ∈ Program.rows ⟨body, mark⟩, .line level ∈ row.layout := by
  induction body with
  | nil => exact .pure [] (by simp [Program.rows])
  | cons first rest ih =>
    rw [Program.rows_cons]
    exact .opens _ _ ((prints_stmt machine width _ first).bind (ih.map _ fun _ => .rfl) (by simp))

theorem prints_rows (program : Program σ) :
    Prints machine width (Draft.rows machine width program.drafts) program.rows fun level =>
      ∃ row ∈ program.rows, .line level ∈ row.layout := by
  refine .opens _ _ ?_
  obtain ⟨body, mark⟩ := program
  cases body with
  | nil => exact .pure [] (by simp [Program.rows])
  | cons first rest =>
    rw [Program.rows_cons]
    exact (prints_stmt machine width _ first).bind
      ((prints_laterRows _ rest mark).map _ fun _ => .rfl)
      (by simp)

/-- What the printer writes is the canonical text, and all its lines can be indented. -/
theorem Program.write_ok {program : Program σ} {text : String}
    (written : program.write machine width = .ok text) :
    text = program.format (width.getD 0) ∧ machine.stores text.length = true ∧
      ∀ row ∈ program.rows, ∀ level, .line level ∈ row.layout →
        padFault? machine width level = none := by
  obtain ⟨rows, laidOut, isPage, stored⟩ := write_eq_ok_iff.mp written
  obtain ⟨rfl, clean⟩ := (prints_rows program).ok rows laidOut
  exact ⟨isPage.symm, stored, fun row member level isLine => clean level ⟨row, member, isLine⟩⟩

/-- The printer stops at a program because the stack is full, because a line cannot be indented, or
because the text cannot be stored. -/
theorem Program.write_error {program : Program σ} {fault : Draft.Fault}
    (fails : program.write machine width = .error fault) :
    fault = .exhausted ∨
      (∃ row ∈ program.rows, ∃ level, .line level ∈ row.layout ∧
        padFault? machine width level = some fault) ∨
      fault = .unstorable ∧ machine.stores (program.format (width.getD 0)).length = false := by
  rcases write_eq_error_iff.mp fails with stops | ⟨rfl, rows, laidOut, unstored⟩
  · refine ((prints_rows program).error fault stops).imp_right fun found => .inl ?_
    obtain ⟨level, ⟨row, member, isLine⟩, wrong⟩ := found
    exact ⟨row, member, level, isLine, wrong⟩
  · obtain ⟨rfl, -⟩ := (prints_rows program).ok rows laidOut
    exact .inr (.inr ⟨rfl, unstored⟩)

theorem Program.write_ne_misplaced (program : Program σ) (cause : Misplaced) :
    program.write machine width ≠ .error (.misplaced cause) := by
  intro fails
  rcases Program.write_error fails with exhausted | ⟨-, -, level, -, wrong⟩ | ⟨unstorable, -⟩
  · cases exhausted
  · rcases cause_of_padFault? wrong with ⟨-, other⟩ | ⟨-, -, ⟨other, -⟩ | ⟨other, -⟩⟩ <;> cases other
  · cases unstorable

/-- A program is written exactly if the spaces before its lines can be counted and the machine has
room for it. -/
theorem Program.exists_write_iff {width : Int} (program : Program σ) :
    (∃ text, program.write machine (some width) = .ok text) ↔
      Draft.Countable width program.drafts ∧ Room machine width program.drafts := by
  constructor
  · rintro ⟨text, written⟩
    exact (room_of_write written).2
  · rintro ⟨countable, room⟩
    cases outcome : program.write machine (some width) with
    | ok text => exact ⟨text, rfl⟩
    | error fault =>
      cases explained_of_write outcome with
      | part | emptyBody =>
        exact absurd outcome (program.write_ne_misplaced _)
      | uncountable visited wrong => simp [countable _ visited] at wrong
      | spaces visited wrong => simp [room.lines _ visited] at wrong
      | text laidOut wrong => simp [room.text _ laidOut] at wrong
      | exhausted visited wrong => simp [room.calls _ visited] at wrong

end Programs

end Parlance
