import Parlance.Proofs.Grammar.Canonical
import Parlance.Proofs.Session.Naming

/-!
Contract: suggestions and descriptions tell the same about the names of a program.

Owns: that a name is described exactly if it is known as a class or a method, which declaration
decides what, and that the suggestions for a program that was read are the reserved words and then
its names, both in order and none of them left out. Does not own: which names are known.
-/

namespace Parlance.Session

variable {σ : Type} {word : String}

/-! ## Descriptions -/

/-- How the description of a declaration begins. -/
def NameKind.heading : NameKind → String
  | .declaredClass => "**class** `"
  | _ => "**method** `"

def declares (word : String) (stmt : Stmt σ) : Bool :=
  stmt.declares?.any fun entry => entry.1 == word

theorem isSome_describes? (word : String) (stmt : Stmt σ) :
    (describes? word stmt).isSome = declares word stmt := by
  cases stmt with
  | classBare name | classFields name | methodValue _ name | methodBlock _ name =>
    by_cases same : name = word <;> simp [describes?, declares, Stmt.declares?, same]
  | _ => rfl

theorem heading_of_describes? {stmt : Stmt σ} {text : String}
    (isText : describes? word stmt = some text) :
    ∃ kind, stmt.declares? = some (word, kind) ∧ kind.heading.toList <+: text.toList := by
  cases stmt with
  | classBare name | classFields name | methodValue _ name | methodBlock _ name =>
    rw [describes?, Option.ite_none_right_eq_some] at isText
    obtain ⟨rfl, isText⟩ := isText
    refine ⟨_, rfl, ?_⟩
    rw [← Option.some.inj isText]
    simp [NameKind.heading]
  | _ => cases isText

theorem description?_eq (program : Program σ) (word : String) :
    description? program word =
      ((Stmt.walk program.body).find? (declares word)).bind (describes? word) := by
  rw [description?]
  induction Stmt.walk program.body with
  | nil => rfl
  | cons first rest ih =>
    rw [List.findSome?_cons, List.find?_cons, ← isSome_describes?]
    cases isText : describes? word first with
    | none => exact ih
    | some text => exact isText.symm

/-! ## The kinds of declared names -/

namespace Names

theorem mem_of_lookup {entries : List (String × NameKind)} {kind : NameKind}
    (isKind : entries.lookup word = some kind) :
    (word, kind) ∈ entries := by
  obtain ⟨front, back, rfl, -⟩ := List.lookup_eq_some_iff.mp isKind
  exact List.mem_append_right front List.mem_cons_self

theorem kind_of_declarations {stmts : List (Stmt σ)} {kind : NameKind}
    (member : (word, kind) ∈ declarations stmts) :
    kind = .declaredClass ∨ kind = .method := by
  obtain ⟨stmt, -, inStmt⟩ := List.mem_flatMap.mp member
  cases stmt <;> simp_all [Stmt.declares?]

theorem kind_of_introductions {stmts : List (Stmt σ)} {kind : NameKind}
    (member : (word, kind) ∈ introductions stmts) :
    kind = .field ∨ kind = .variable := by
  obtain ⟨stmt, -, inStmt⟩ := List.mem_flatMap.mp member
  cases stmt with
  | assign target => cases target <;> simp_all [Stmt.introduces]
  | _ => grind [Stmt.introduces]

/-- The kind of a name in a program: that of its last declaration, or else that of its first
introduction. -/
theorem lookup_ofProgram (program : Program σ) (word : String) :
    (ofProgram program).lookup word =
      ((declarations (Stmt.walk program.body)).reverse.lookup word).or
        ((introductions (Stmt.walk program.body)).lookup word) := by
  rw [ofProgram, lookup_foldl, List.lookup_nil, Option.none_or]

end Names

/-- A name is described exactly if one of the statements that are passed declares it. -/
theorem isSome_description?_iff {program : Program σ} :
    (description? program word).isSome = true ↔
      word ∈ (Names.declarations (Stmt.walk program.body)).map Prod.fst := by
  rw [description?, List.findSome?_isSome_iff, Names.declarations, List.map_flatMap,
    List.mem_flatMap]
  simp only [isSome_describes?, declares, Option.any_eq_true, List.mem_map, Option.mem_toList,
    beq_iff_eq]

/-- A name is described exactly if it is known as a class or as a method. -/
theorem isSome_description?_iff_kind {program : Program σ} :
    (description? program word).isSome = true ↔
      (Names.ofProgram program).lookup word = some .declaredClass ∨
        (Names.ofProgram program).lookup word = some .method := by
  rw [isSome_description?_iff, Names.lookup_ofProgram, ← List.mem_reverse, ← List.map_reverse,
    ← Names.isSome_lookup_iff]
  cases isLast : (Names.declarations (Stmt.walk program.body)).reverse.lookup word with
  | none =>
    refine iff_of_false (by simp) fun isDeclared => ?_
    rw [Option.none_or] at isDeclared
    rcases isDeclared with isClass | isMethod
    · simpa using Names.kind_of_introductions (Names.mem_of_lookup isClass)
    · simpa using Names.kind_of_introductions (Names.mem_of_lookup isMethod)
  | some kind =>
    have isKind := Names.kind_of_declarations (List.mem_reverse.mp (Names.mem_of_lookup isLast))
    refine iff_of_true rfl ?_
    simpa using isKind

/-- A name that is not declared both as a class and as a method is described as what it is known. -/
theorem heading_of_description? {program : Program σ} {text : String}
    (isText : description? program word = some text)
    (notBoth : ¬((word, .declaredClass) ∈ Names.declarations (Stmt.walk program.body) ∧
      (word, .method) ∈ Names.declarations (Stmt.walk program.body))) :
    ∃ kind, (Names.ofProgram program).lookup word = some kind ∧
      kind.heading.toList <+: text.toList := by
  obtain ⟨stmt, passed, describes⟩ := List.exists_of_findSome?_eq_some isText
  obtain ⟨kind, declared, begins⟩ := heading_of_describes? describes
  have member : (word, kind) ∈ Names.declarations (Stmt.walk program.body) :=
    List.mem_flatMap.mpr ⟨stmt, passed, by simp [declared]⟩
  have isDeclared : ((Names.declarations (Stmt.walk program.body)).reverse.lookup word).isSome := by
    rw [Names.isSome_lookup_iff, List.map_reverse, List.mem_reverse]
    exact List.mem_map_of_mem member
  obtain ⟨last, isLast⟩ := Option.isSome_iff_exists.mp isDeclared
  have lastMember := List.mem_reverse.mp (Names.mem_of_lookup isLast)
  have same : last = kind := by
    rcases Names.kind_of_declarations member with rfl | rfl <;>
      rcases Names.kind_of_declarations lastMember with rfl | rfl
    · rfl
    · exact absurd ⟨member, lastMember⟩ notBoth
    · exact absurd ⟨lastMember, member⟩ notBoth
    · rfl
  refine ⟨kind, ?_, begins⟩
  rw [Names.lookup_ofProgram, isLast, same, Option.some_or]

/-! ## Suggestions -/

/-- Sorting by different names puts them in strict order. -/
theorem pairwise_mergeSort {α : Type} {name : α → String} {items : List α}
    (distinct : (items.map name).Nodup) :
    ((items.mergeSort fun left right => decide (name left ≤ name right)).map name).Pairwise
      (· < ·) := by
  have ordered : (items.mergeSort fun left right => decide (name left ≤ name right)).Pairwise
      fun left right => decide (name left ≤ name right) = true := by
    apply List.pairwise_mergeSort
    · intro left middle right isLe isLe'
      exact decide_eq_true (String.le_trans (of_decide_eq_true isLe) (of_decide_eq_true isLe'))
    · intro left right
      rw [Bool.or_eq_true, decide_eq_true_eq, decide_eq_true_eq]
      exact String.le_total (name left) (name right)
  have apart : ((items.mergeSort fun left right => decide (name left ≤ name right)).map name).Nodup :=
    ((items.mergeSort_perm _).map name).nodup_iff.mpr distinct
  refine List.pairwise_map.mpr ((ordered.and (List.pairwise_map.mp apart)).imp ?_)
  intro left right both
  rw [← String.not_le]
  exact fun back => both.2 (String.le_antisymm (of_decide_eq_true both.1) back)

namespace Names

variable {names : Names}

theorem nodup_add (kind : NameKind) (name : String) (distinct : (names.map Prod.fst).Nodup) :
    ((add kind names name).map Prod.fst).Nodup := by
  unfold add
  cases known : names.lookup name with
  | some old => exact distinct
  | none =>
    have fresh : name ∉ names.map Prod.fst := by
      rw [← isSome_lookup_iff, known]
      simp
    rw [List.map_append]
    refine List.nodup_append.mpr ⟨distinct, by simp, ?_⟩
    intro other member new isNew same
    rw [same, List.mem_singleton.mp isNew] at member
    exact fresh member

theorem nodup_introduce (added : List (String × NameKind)) (distinct : (names.map Prod.fst).Nodup) :
    ((introduce names added).map Prod.fst).Nodup := by
  induction added generalizing names with
  | nil => exact distinct
  | cons first rest ih => exact ih (nodup_add first.2 first.1 distinct)

theorem nodup_declare (declared : Option (String × NameKind))
    (distinct : (names.map Prod.fst).Nodup) :
    ((declare names declared).map Prod.fst).Nodup := by
  cases declared with
  | none => exact distinct
  | some entry => exact Keyed.nodup_put entry.1 entry.2 distinct

/-- Each name of a row of statements is there once. -/
theorem nodup_foldl (stmts : List (Stmt σ)) (distinct : (names.map Prod.fst).Nodup) :
    ((stmts.foldl addStmt names).map Prod.fst).Nodup := by
  induction stmts generalizing names with
  | nil => exact distinct
  | cons first rest ih =>
    rw [List.foldl_cons, addStmt_eq]
    exact ih (nodup_introduce _ (nodup_declare _ distinct))

end Names

namespace Suggestion

theorem labels_reserved : reserved.map label =
    (Kind.reserved.map Prod.fst).mergeSort fun left right => decide (left ≤ right) := by
  rw [reserved, List.map_map]
  exact List.map_id _

theorem pairwise_reserved : (reserved.map label).Pairwise (· < ·) := by
  have distinct : ((Kind.reserved.map Prod.fst).map id).Nodup := by decide
  have ordered := pairwise_mergeSort distinct
  rw [List.map_id] at ordered
  rw [labels_reserved]
  exact ordered

/-- Nothing is left out of suggestions that have different labels. -/
theorem distinct_eq_self {seen : List String} {suggestions : List Suggestion}
    (apart : (suggestions.map label).Nodup) (unseen : ∀ name ∈ suggestions.map label, name ∉ seen) :
    distinct seen suggestions = suggestions := by
  induction suggestions generalizing seen with
  | nil => rfl
  | cons first rest ih =>
    rw [List.map_cons, List.nodup_cons] at apart
    rw [List.map_cons, List.forall_mem_cons] at unseen
    have isNew : ¬seen.contains first.label = true := fun isKnown =>
      unseen.1 (List.contains_iff_mem.mp isKnown)
    rw [distinct, if_neg isNew, ih apart.2]
    intro name member
    rw [List.mem_cons, not_or]
    exact ⟨fun same => apart.1 (same ▸ member), unseen.2 name member⟩

end Suggestion

/-- The names that a statement of a text introduces are no reserved words. -/
theorem isName_of_mem_names {program : Program σ} {stmt : Stmt σ} {name : String}
    (canonical : ∀ node, program.Has node → node.Canonical) (has : program.Has (.stmt stmt))
    (member : name ∈ stmt.names) :
    IsName name := by
  have own := canonical _ has
  cases stmt with
  | classBare =>
    rw [List.mem_singleton.mp member]
    exact own
  | classFields | methodValue | methodBlock =>
    simp only [Stmt.names, Stmt.declares?, Stmt.introduces, Option.toList_some,
      List.singleton_append, List.map_cons, List.map_map, List.mem_cons, List.mem_map] at member
    rcases member with rfl | ⟨param, isParam, rfl⟩
    · exact own
    · exact canonical (.param param)
        (.child has (by simp [Node.children, Stmt.children, isParam]))
  | forLoop =>
    exact own.2 name (by simpa [Stmt.names, Stmt.declares?, Stmt.introduces] using member)
  | assign target =>
    have below := canonical _ (.child has List.mem_cons_self : program.Has target.node)
    cases target with
    | «variable» =>
      rw [List.mem_singleton.mp member]
      exact below
    | names =>
      exact below.2 name (by simpa [Stmt.names, Stmt.declares?, Stmt.introduces] using member)
    | _ => cases member
  | _ => cases member

theorem notMem_reserved_of_isName {name : String} (isName : IsName name) :
    name ∉ Kind.reserved.map Prod.fst := by
  intro member
  obtain ⟨entry, isEntry, isKey⟩ := List.mem_map.mp member
  have listed : ∀ entry ∈ Kind.reserved, Kind.ofWord entry.1 ≠ .name := by decide +kernel
  exact listed entry isEntry (isKey ▸ isName.notReserved)

structure Agrees (program : Program σ) (word : String) : Prop where
  /-- A name has the kind of its last declaration, or else that of its first introduction. -/
  kind : (Names.ofProgram program).lookup word =
    ((Names.declarations (Stmt.walk program.body)).reverse.lookup word).or
      ((Names.introductions (Stmt.walk program.body)).lookup word)
  /-- What is described are the names of classes and methods. -/
  described : (description? program word).isSome = true ↔
    (Names.ofProgram program).lookup word = some .declaredClass ∨
      (Names.ofProgram program).lookup word = some .method
  /-- It is the first declaration that is described. -/
  first : description? program word =
    ((Stmt.walk program.body).find? (declares word)).bind (describes? word)
  /-- The two are of one kind, unless the name is declared both as a class and as a method. -/
  same : ∀ text, description? program word = some text →
    ¬((word, .declaredClass) ∈ Names.declarations (Stmt.walk program.body) ∧
      (word, .method) ∈ Names.declarations (Stmt.walk program.body)) →
    ∃ kind, (Names.ofProgram program).lookup word = some kind ∧
      kind.heading.toList <+: text.toList

/-- **Suggestions and descriptions.** For a program that was read from a text the two agree about
every name, and the suggestions are the reserved words and then the names of the program, both in
strict order; no two have the same label, so that none is left out. -/
theorem suggestions_agree {limit : Limit} {source : String} {program : Program Span}
    (accepted : Program.ofText limit source = .ok program) :
    (∀ word, Agrees program word) ∧
    Suggestion.all (some program) = Suggestion.reserved ++
      (Names.ofProgram program).sorted.map (fun entry => ⟨entry.1, some entry.2⟩) ∧
    ((Suggestion.all (some program)).map Suggestion.label).Nodup ∧
    (Suggestion.reserved.map Suggestion.label).Perm (Kind.reserved.map Prod.fst) ∧
    (Suggestion.reserved.map Suggestion.label).Pairwise (· < ·) ∧
    (Names.ofProgram program).sorted.Perm (Names.ofProgram program) ∧
    ((Names.ofProgram program).sorted.map Prod.fst).Pairwise (· < ·) := by
  have canonical : ∀ node, program.Has node → node.Canonical := by
    intro node has
    obtain ⟨depth, words, forms, legible⟩ := Program.exists_forms_of_ofText accepted has
    exact forms.canonical legible
  have keys : ((Names.ofProgram program).map Prod.fst).Nodup :=
    Names.nodup_foldl (Stmt.walk program.body) List.nodup_nil
  have inOrder := Suggestion.pairwise_reserved
  have namesInOrder := pairwise_mergeSort keys
  have foreign : ∀ name ∈ Suggestion.reserved.map Suggestion.label,
      ∀ other ∈ (Names.ofProgram program).sorted.map Prod.fst, name ≠ other := by
    rintro name isReserved _ isName rfl
    rw [Names.mem_sorted_iff, Names.ofProgram, Names.mem_keys_foldl_iff] at isName
    obtain ⟨stmt, passed, member⟩ := isName
    have has := (Program.mem_walk_iff.mp passed).has
    exact notMem_reserved_of_isName (isName_of_mem_names canonical has member)
      (Suggestion.mem_labels_reserved_iff.mp isReserved)
  have apart : ((Suggestion.reserved ++ (Names.ofProgram program).sorted.map
      (fun entry => (⟨entry.1, some entry.2⟩ : Suggestion))).map Suggestion.label).Nodup := by
    rw [List.map_append, List.map_map]
    exact List.nodup_append.mpr
      ⟨inOrder.imp String.ne_of_lt, namesInOrder.imp String.ne_of_lt, foreign⟩
  have whole : Suggestion.all (some program) = _ :=
    Suggestion.distinct_eq_self apart fun name _ => List.not_mem_nil
  refine ⟨fun word => ?_, whole, whole ▸ apart, ?_, inOrder, List.mergeSort_perm _ _, namesInOrder⟩
  · exact ⟨Names.lookup_ofProgram program word, isSome_description?_iff_kind,
      description?_eq program word, fun text => heading_of_description?⟩
  · rw [Suggestion.labels_reserved]
    exact List.mergeSort_perm _ _

/-- A name that is declared as a class and then as a method is described as a class and suggested as
a method. -/
theorem suggestions_agree_class_and_method :
    ∃ program, Program.ofText .standard "class p(x)\nend\ndef p(y) = y\n" = .ok program ∧
      (Names.ofProgram program).lookup "p" = some .method ∧
      description? program "p" = some "**class** `p(x)`" ∧ Agrees program "p" ∧
      ((Suggestion.all (some program)).map Suggestion.label).Nodup := by
  have passes : (Program.ofText .standard "class p(x)\nend\ndef p(y) = y\n").toOption.any
      (fun program => (Names.ofProgram program).lookup "p" == some .method &&
        description? program "p" == some "**class** `p(x)`") = true := by decide +kernel
  obtain ⟨program, accepted, found⟩ := Program.exists_of_any passes
  rw [Bool.and_eq_true, beq_iff_eq, beq_iff_eq] at found
  obtain ⟨agrees, -, distinct, -⟩ := suggestions_agree accepted
  exact ⟨program, accepted, found.1, found.2, agrees "p", distinct⟩

end Parlance.Session
