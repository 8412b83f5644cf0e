import Parlance.Proofs.Grammar.Slices
import Parlance.Session.Names

/-!
Contract: which names of a program are known, and with what kind.

Owns: what a statement declares and what else it introduces, the kind that a name has behind a row of
statements (`Names.lookup_foldl`), the statements that the walk reaches, and that the names known are
those introduced by a statement that is reached. What stands in a closure, or in an `if` that is no
statement of its own, is not reached.
-/

namespace Parlance

variable {σ : Type}

/-! ## What statements introduce -/

/-- The class or the method that a statement declares. -/
def Stmt.declares? : Stmt σ → Option (String × Session.NameKind)
  | .classBare name _ _ | .classFields name _ _ _ => some (name, .declaredClass)
  | .methodValue _ name _ _ _ | .methodBlock _ name _ _ _ => some (name, .method)
  | _ => none

/-- The other names that a statement introduces: fields, parameters, bindings of loops and names
that are assigned. -/
def Stmt.introduces : Stmt σ → List (String × Session.NameKind)
  | .classFields _ fields _ _ => fields.map fun field => (field.name, .field)
  | .methodValue _ _ params _ _ | .methodBlock _ _ params _ _ =>
    params.map fun param => (param.name, .variable)
  | .forLoop bindings _ _ _ => bindings.map fun name => (name, .variable)
  | .assign (.variable name _) _ _ _ => [(name, .variable)]
  | .assign (.names targets _) _ _ _ => targets.map fun name => (name, .variable)
  | _ => []

def Stmt.names (stmt : Stmt σ) : List String :=
  (stmt.declares?.toList ++ stmt.introduces).map Prod.fst

namespace Session.Names

/-- Puts what is declared in place of what was known. -/
def declare (names : Names) : Option (String × NameKind) → Names
  | some (name, kind) => Keyed.put name kind names
  | none => names

def introduce (names : Names) (added : List (String × NameKind)) : Names :=
  added.foldl (fun names entry => add entry.2 names entry.1) names

theorem addStmt_eq (names : Names) (stmt : Stmt σ) :
    addStmt names stmt = introduce (declare names stmt.declares?) stmt.introduces := by
  cases stmt with
  | classFields | methodValue | methodBlock | forLoop =>
    simp [addStmt, introduce, declare, Stmt.declares?, Stmt.introduces, List.foldl_map]
  | assign target =>
    cases target with
    | names =>
      simp [addStmt, introduce, declare, Stmt.declares?, Stmt.introduces, List.foldl_map]
    | _ => rfl
  | _ => rfl

/-! ## The kind of a name -/

theorem lookup_add (kind : NameKind) (names : Names) (name word : String) :
    (add kind names name).lookup word = (names.lookup word).or ([(name, kind)].lookup word) := by
  unfold add
  cases known : names.lookup name with
  | none => exact List.lookup_append
  | some old =>
    by_cases same : word = name
    · rw [same, known]
      rfl
    · have other : ((word == name) = false) := beq_eq_false_iff_ne.mpr same
      simp [List.lookup_cons, other]

theorem lookup_introduce (names : Names) (added : List (String × NameKind)) (word : String) :
    (introduce names added).lookup word = (names.lookup word).or (added.lookup word) := by
  induction added generalizing names with
  | nil => exact (Option.or_none).symm
  | cons first rest ih =>
    calc (introduce names (first :: rest)).lookup word
      _ = ((add first.2 names first.1).lookup word).or (rest.lookup word) := ih _
      _ = (names.lookup word).or (([first].lookup word).or (rest.lookup word)) := by
          rw [lookup_add, Option.or_assoc]
      _ = (names.lookup word).or ((first :: rest).lookup word) := by
          rw [← List.lookup_append, List.singleton_append]

theorem lookup_declare (names : Names) (declared : Option (String × NameKind)) (word : String) :
    (declare names declared).lookup word = (declared.toList.lookup word).or (names.lookup word) := by
  cases declared with
  | none => rfl
  | some entry =>
    rw [declare, Keyed.lookup_put, Option.toList_some, List.lookup_cons]
    cases word == entry.1 <;> rfl

def declarations (stmts : List (Stmt σ)) : List (String × NameKind) :=
  stmts.flatMap fun stmt => stmt.declares?.toList

def introductions (stmts : List (Stmt σ)) : List (String × NameKind) :=
  stmts.flatMap Stmt.introduces

/-- **The kind of a name** behind a row of statements. It is the kind of the last declaration. A
name that is not declared has the kind that it had, or else that of its first introduction. -/
theorem lookup_foldl (names : Names) (stmts : List (Stmt σ)) (word : String) :
    (stmts.foldl addStmt names).lookup word =
      ((declarations stmts).reverse.lookup word).or
        ((names.lookup word).or ((introductions stmts).lookup word)) := by
  induction stmts generalizing names with
  | nil => exact (Option.or_none).symm
  | cons first rest ih =>
    have single : first.declares?.toList.reverse = first.declares?.toList := by
      cases first.declares? <;> rfl
    rw [List.foldl_cons, ih, addStmt_eq, lookup_introduce, lookup_declare]
    simp only [declarations, introductions, List.flatMap_cons, List.reverse_append,
      List.lookup_append, single, Option.or_assoc]

theorem isSome_lookup_iff {entries : List (String × NameKind)} {name : String} :
    (entries.lookup name).isSome = true ↔ name ∈ entries.map Prod.fst := by
  rw [List.lookup_isSome_iff, List.mem_map]
  simp only [beq_iff_eq, @eq_comm _ name]

/-- The names of a row of statements are those that one of them introduces. -/
theorem mem_keys_foldl_iff {stmts : List (Stmt σ)} {name : String} :
    name ∈ (stmts.foldl addStmt ([] : Names)).map Prod.fst ↔ ∃ stmt ∈ stmts, name ∈ stmt.names := by
  rw [← isSome_lookup_iff, lookup_foldl, List.lookup_nil, Option.none_or, Option.isSome_or,
    Bool.or_eq_true, isSome_lookup_iff, isSome_lookup_iff, List.map_reverse, List.mem_reverse,
    declarations, introductions, List.map_flatMap, List.map_flatMap, List.mem_flatMap,
    List.mem_flatMap, ← exists_or]
  simp only [Stmt.names, List.map_append, List.mem_append, ← and_or_left]

end Session.Names

/-! ## The statements that are reached -/

/-- The statements directly in the blocks of a statement. -/
def Stmt.blocks : Stmt σ → List (Stmt σ)
  | .classBare _ body _ | .classFields _ _ body _ | .methodBlock _ _ _ body _
  | .forLoop _ _ body _ | .whileLoop _ body _ => body
  | .expression (.ifLine _ thenDo _) _ => [thenDo]
  | .expression (.ifLineElse _ thenDo elseDo _) _ => [thenDo, elseDo]
  | .expression (.ifBlock _ thenDo _) _ => thenDo
  | .expression (.ifBlockElse _ thenDo elseDo _) _ => thenDo ++ elseDo
  | _ => []

namespace Stmt

theorem walk_append (front back : List (Stmt σ)) : walk (front ++ back) = walk front ++ walk back := by
  induction front with
  | nil => rw [walk]; rfl
  | cons first rest ih => rw [List.cons_append, walk, walk, ih, List.cons_append, List.append_assoc]

theorem within_eq (stmt : Stmt σ) : stmt.within = walk stmt.blocks := by
  cases stmt with
  | expression value =>
    cases value with
    | ifLine | ifLineElse => simp [within, blocks, walk]
    | ifBlockElse => exact (walk_append _ _).symm
    | _ => rfl
  | _ => rfl

theorem walk_cons (first : Stmt σ) (rest : List (Stmt σ)) :
    walk (first :: rest) = first :: (walk first.blocks ++ walk rest) := by
  rw [walk, within_eq]

/-- Rows of statements by induction: the blocks of the first statement, and the others. -/
theorem blocks_induction {motive : List (Stmt σ) → Prop} (nil : motive [])
    (cons : ∀ first rest, motive first.blocks → motive rest → motive (first :: rest))
    (stmts : List (Stmt σ)) :
    motive stmts := by
  have alone : ∀ {row : List (Stmt σ)}, (∀ more, motive more → motive (row ++ more)) →
      motive row := fun {row} all => List.append_nil row ▸ all [] nil
  -- Two branches are one row, so a row is taken together with what stands behind it.
  apply alone
  refine walk.induct (fun stmt => motive stmt.blocks)
    (fun row => ∀ more, motive more → motive (row ++ more)) ?_ ?_ ?_ ?_ ?_ ?_ ?_ ?_ ?_ ?_ ?_ ?_ stmts
  · exact fun _ _ _ => alone
  · exact fun _ _ _ _ => alone
  · exact fun _ _ _ _ _ => alone
  · exact fun _ _ _ _ => alone
  · exact fun _ _ _ => alone
  · exact fun _ thenDo _ _ ih => cons thenDo [] ih nil
  · exact fun _ thenDo elseDo _ _ ih ihElse => cons thenDo [elseDo] ih (cons elseDo [] ihElse nil)
  · exact fun _ _ _ _ => alone
  · exact fun _ _ elseDo _ _ ih ihElse => ih elseDo (alone ihElse)
  · intros
    rw [blocks] <;> assumption
  · exact fun _ => id
  · exact fun first rest ih ihRest more behind => cons first (rest ++ more) ih (ihRest more behind)

variable {stmts : List (Stmt σ)} {stmt parent : Stmt σ}

/-- The walk passes every statement of its row. -/
theorem mem_walk_of_mem (member : stmt ∈ stmts) : stmt ∈ walk stmts := by
  induction stmts with
  | nil => cases member
  | cons first rest ih =>
    rw [walk_cons]
    rcases List.mem_cons.mp member with rfl | member
    · exact List.mem_cons_self
    · exact List.mem_cons_of_mem _ (List.mem_append_right _ (ih member))

theorem mem_walk_of_blocks (passed : parent ∈ walk stmts) (member : stmt ∈ parent.blocks) :
    stmt ∈ walk stmts := by
  induction stmts using blocks_induction with
  | nil => simp [walk] at passed
  | cons first rest ih ihRest =>
    rw [walk_cons, List.mem_cons, List.mem_append] at passed ⊢
    rcases passed with rfl | inBlocks | inRest
    · exact .inr (.inl (mem_walk_of_mem member))
    · exact .inr (.inl (ih inBlocks))
    · exact .inr (.inr (ihRest inRest))

theorem forall_walk {holds : Stmt σ → Prop} (row : ∀ stmt ∈ stmts, holds stmt)
    (down : ∀ parent, holds parent → ∀ stmt ∈ parent.blocks, holds stmt) :
    ∀ stmt ∈ walk stmts, holds stmt := by
  induction stmts using blocks_induction with
  | nil => simp [walk]
  | cons first rest ih ihRest =>
    rw [List.forall_mem_cons] at row
    rw [walk_cons, List.forall_mem_cons, List.forall_mem_append]
    exact ⟨row.1, ih (down first row.1), ihRest row.2⟩

end Stmt

/-- A statement is reached through blocks: those of classes, methods and loops, and the branches of
an `if` that is a statement of its own. -/
inductive Program.Reaches (program : Program σ) : Stmt σ → Prop where
  | body {stmt : Stmt σ} (member : stmt ∈ program.body) :
      Program.Reaches program stmt
  | block {parent stmt : Stmt σ} (reached : Program.Reaches program parent)
      (member : stmt ∈ parent.blocks) :
      Program.Reaches program stmt

/-- Whether an expression is an `if`. -/
def Expr.isBranching : Expr σ → Bool
  | .ifLine _ _ _ | .ifLineElse _ _ _ _ | .ifBlock _ _ _ | .ifBlockElse _ _ _ _ => true
  | _ => false

/-- A node stands in a value: it is an expression, other than an `if` that is a statement of its
own, or a child of a node in one. -/
inductive Program.Conceals (program : Program σ) : Node σ → Prop where
  | value {parent : Node σ} {value : Expr σ} (has : program.Has parent)
      (member : .expr value ∈ parent.children)
      (isValue : ∀ mark, parent = .stmt (.expression value mark) → value.isBranching = false) :
      Program.Conceals program (.expr value)
  | child {parent node : Node σ} (concealed : Program.Conceals program parent)
      (member : node ∈ parent.children) :
      Program.Conceals program node

theorem Stmt.mem_blocks_of_child {stmt inner : Stmt σ} (member : .stmt inner ∈ stmt.children) :
    inner ∈ stmt.blocks := by
  cases stmt with
  | classBare | classFields | methodBlock | forLoop | whileLoop =>
    simpa [Stmt.children, Stmt.blocks] using member
  | assign target => cases target <;> simp [Stmt.children, Target.node] at member
  | _ => simp [Stmt.children] at member

theorem Expr.mem_blocks_of_child {value : Expr σ} {inner : Stmt σ}
    (isBranching : value.isBranching = true) (member : .stmt inner ∈ value.children) (mark : σ) :
    inner ∈ (Stmt.expression value mark).blocks := by
  cases value with
  | ifLine | ifLineElse | ifBlock | ifBlockElse =>
    simpa [Expr.children, Stmt.blocks] using member
  | _ => cases isBranching

namespace Program

variable {program : Program σ} {parent node : Node σ} {stmt : Stmt σ}

/-- The walk passes the statements that are reached through blocks. -/
theorem mem_walk_iff : stmt ∈ Stmt.walk program.body ↔ program.Reaches stmt := by
  constructor
  · intro passed
    exact Stmt.forall_walk (fun _ => .body) (fun _ reached _ => .block reached) stmt passed
  · intro reached
    induction reached with
    | body member => exact Stmt.mem_walk_of_mem member
    | block _ member ih => exact Stmt.mem_walk_of_blocks ih member

/-- A node on the way through blocks: a statement that is reached, or its `if`. -/
def Opens (program : Program σ) : Node σ → Prop
  | .stmt stmt => program.Reaches stmt
  | .expr value => value.isBranching = true ∧ ∃ mark, program.Reaches (.expression value mark)
  | _ => True

/-- From a node on the way through blocks, a child is on the way too or stands in a value. -/
theorem Opens.child (has : program.Has parent) (opens : program.Opens parent)
    (member : node ∈ parent.children) :
    program.Conceals node ∨ program.Opens node := by
  cases node with
  | param | entry | names => exact .inr trivial
  | expr value =>
    by_cases isOwn : value.isBranching = true ∧ ∃ mark, parent = .stmt (.expression value mark)
    · obtain ⟨isBranching, mark, rfl⟩ := isOwn
      exact .inr ⟨isBranching, mark, opens⟩
    · refine .inl (.value has member fun mark isParent => ?_)
      rw [Bool.eq_false_iff]
      exact fun isBranching => isOwn ⟨isBranching, mark, isParent⟩
  | stmt inner =>
    right
    cases parent with
    | stmt outer => exact .block opens (Stmt.mem_blocks_of_child member)
    | expr value =>
      obtain ⟨isBranching, mark, reached⟩ := opens
      exact .block reached (Expr.mem_blocks_of_child isBranching member mark)
    | param outer => cases outer <;> simp [Node.children, Param.children] at member
    | entry outer => cases outer; simp [Node.children, Entry.children] at member
    | names => cases member

/-- What stands in a program is on the way through blocks or stands in a value. -/
theorem Has.conceals_or_opens (has : program.Has node) :
    program.Conceals node ∨ program.Opens node := by
  induction has with
  | body member => exact .inr (.body member)
  | child has member ih =>
    rcases ih with concealed | opens
    · exact .inl (.child concealed member)
    · exact opens.child has member

theorem Conceals.has (concealed : program.Conceals node) : program.Has node := by
  induction concealed with
  | value has member => exact .child has member
  | child _ member ih => exact .child ih member

theorem Has.blocks {inner : Stmt σ} (has : program.Has (.stmt stmt)) (member : inner ∈ stmt.blocks) :
    program.Has (.stmt inner) := by
  cases stmt with
  | classBare | classFields | methodBlock | forLoop | whileLoop =>
    exact .child has (by simpa [Node.children, Stmt.children, Stmt.blocks] using member)
  | expression value =>
    have own : program.Has (.expr value) := .child has (by simp [Node.children, Stmt.children])
    cases value with
    | ifLine | ifLineElse | ifBlock | ifBlockElse =>
      exact .child own (by simpa [Node.children, Expr.children, Stmt.blocks] using member)
    | _ => cases member
  | _ => cases member

theorem Reaches.has (reached : program.Reaches stmt) : program.Has (.stmt stmt) := by
  induction reached with
  | body member => exact .body member
  | block _ member ih => exact ih.blocks member

end Program

/-! ## Suggestions -/

namespace Session

theorem Suggestion.mem_labels_distinct_iff {seen : List String} {suggestions : List Suggestion}
    {name : String} :
    name ∈ (distinct seen suggestions).map label ↔ name ∉ seen ∧ name ∈ suggestions.map label := by
  induction suggestions generalizing seen with
  | nil => simp [distinct]
  | cons first rest ih =>
    rw [distinct, List.map_cons, List.mem_cons]
    by_cases known : first.label ∈ seen
    · rw [if_pos (List.contains_iff_mem.mpr known), ih]
      grind
    · rw [if_neg (fun isKnown => known (List.contains_iff_mem.mp isKnown)), List.map_cons,
        List.mem_cons, ih]
      grind

theorem Suggestion.mem_labels_reserved_iff {name : String} :
    name ∈ reserved.map label ↔ name ∈ Kind.reserved.map Prod.fst := by
  simp [reserved, Function.comp_def]

theorem Names.mem_sorted_iff {names : Names} {name : String} :
    name ∈ names.sorted.map Prod.fst ↔ name ∈ names.map Prod.fst := by
  simp [sorted]

/-- **The names known.** They are those introduced by statements that are reached through blocks,
and they are suggested besides the reserved words. A statement is reached or stands in a value, so
all names of a program are known exactly if those introduced in values are introduced by statements
that are reached as well. -/
theorem names_known_iff (program : Program σ) :
    (∀ name, name ∈ (Names.ofProgram program).map Prod.fst ↔
      ∃ stmt, program.Reaches stmt ∧ name ∈ stmt.names) ∧
    (∀ name, name ∈ (Suggestion.all (some program)).map Suggestion.label ↔
      name ∈ Kind.reserved.map Prod.fst ∨ name ∈ (Names.ofProgram program).map Prod.fst) ∧
    (∀ stmt, program.Has (.stmt stmt) ↔ program.Reaches stmt ∨ program.Conceals (.stmt stmt)) ∧
    ((∀ stmt, program.Has (.stmt stmt) →
        ∀ name ∈ stmt.names, name ∈ (Names.ofProgram program).map Prod.fst) ↔
      ∀ stmt, program.Conceals (.stmt stmt) →
        ∀ name ∈ stmt.names, ∃ other, program.Reaches other ∧ name ∈ other.names) := by
  have known : ∀ name, name ∈ (Names.ofProgram program).map Prod.fst ↔
      ∃ stmt, program.Reaches stmt ∧ name ∈ stmt.names := by
    intro name
    simp only [Names.ofProgram, Names.mem_keys_foldl_iff, Program.mem_walk_iff]
  have stands : ∀ stmt, program.Has (.stmt stmt) ↔
      program.Reaches stmt ∨ program.Conceals (.stmt stmt) := by
    intro stmt
    constructor
    · exact fun has => has.conceals_or_opens.symm
    · rintro (reached | concealed)
      · exact reached.has
      · exact concealed.has
  refine ⟨known, fun name => ?_, stands, ?_, ?_⟩
  · rw [Suggestion.all, Suggestion.mem_labels_distinct_iff, List.map_append, List.mem_append,
      Suggestion.mem_labels_reserved_iff, ← Names.mem_sorted_iff, List.map_map]
    exact and_iff_right List.not_mem_nil
  · intro complete stmt concealed name isName
    exact (known name).mp (complete stmt concealed.has name isName)
  · intro shared stmt has name isName
    rw [known]
    rcases (stands stmt).mp has with reached | concealed
    · exact ⟨stmt, reached, isName⟩
    · exact shared stmt concealed name isName

/-- The names that the short body of a closure introduces. -/
def closureNames : Expr σ → List String
  | .closureLine _ body _ => body.names
  | _ => []

/-- A name that is assigned in a closure is not known. -/
theorem names_known_iff_closure :
    ∃ program stmt, Program.ofText .standard "f = fn x -> y = 1 end\n" = .ok program ∧
      program.Conceals (.stmt stmt) ∧ "y" ∈ stmt.names ∧
      "y" ∉ (Names.ofProgram program).map Prod.fst := by
  have passes : (Program.ofText .standard "f = fn x -> y = 1 end\n").toOption.any
      (fun program => program.assigned?.any (fun value => (closureNames value).contains "y") &&
        !((Names.ofProgram program).map Prod.fst).contains "y") = true := by decide +kernel
  obtain ⟨program, accepted, found⟩ := Program.exists_of_any passes
  rw [Bool.and_eq_true, Bool.not_eq_true', List.contains_eq_mem, decide_eq_false_iff_not] at found
  obtain ⟨value, has, isNamed⟩ := Program.exists_of_assigned? found.1
  unfold closureNames at isNamed
  split at isNamed
  · rename_i params body mark
    have isName : "y" ∈ body.names := List.contains_iff_mem.mp isNamed
    have below : program.Has (.stmt body) := .child has List.mem_cons_self
    obtain ⟨known, -, stands, -⟩ := names_known_iff program
    rcases (stands body).mp below with reached | concealed
    · exact absurd ((known "y").mpr ⟨body, reached, isName⟩) found.2
    · exact ⟨program, body, accepted, concealed, isName, found.2⟩
  · contradiction

end Session

end Parlance
