import Mathlib.Data.List.Forall2
import Mathlib.Data.Prod.Lex
import Parlance.Proofs.Grammar.Slices
import Parlance.Session

/-!
Contract: the landmarks of a program form a well-nested forest.

Owns: the order of regions in an editor, what it means that a node of a program is shown as a
landmark (`Node.ShownAs`), and that the landmarks of a text lie inside each other as the classes of
the text do, one behind the other and none left out.
-/

namespace Parlance

open Grammar Session

/-! ## Regions -/

namespace Region

def first (region : Region) : Int ×ₗ Int :=
  toLex (region.startLine, region.startCharacter)

def behind (region : Region) : Int ×ₗ Int :=
  toLex (region.endLine, region.endCharacter)

/-- An editor takes a region that has no negative numbers and that begins before it ends. -/
structure IsProper (region : Region) : Prop where
  startLine : 0 ≤ region.startLine
  startCharacter : 0 ≤ region.startCharacter
  endLine : 0 ≤ region.endLine
  endCharacter : 0 ≤ region.endCharacter
  filled : region.first < region.behind

def Within (inner outer : Region) : Prop :=
  outer.first ≤ inner.first ∧ inner.behind ≤ outer.behind

def Before (left right : Region) : Prop :=
  left.behind ≤ right.first

end Region

namespace Span.Covers

variable {span span' : Span} {source : List Char} {first behind first' behind' : Nat}

theorem isProper (covers : span.Covers source first behind) : span.region.IsProper := by
  have filled := covers.filled
  have inside := covers.inside
  have ends : first = behind - 1 ∨ first < behind - 1 := by omega
  constructor <;>
    simp only [region, Region.first, Region.behind, Prod.Lex.toLex_lt_toLex, covers.startLine,
      covers.startColumn, covers.endLine, covers.endColumn]
  · simp only [lineAt]; omega
  · simp only [columnAt]; omega
  · simp only [lineAt]; omega
  · simp only [columnAt]; omega
  · rcases ends with rfl | less
    · omega
    · have := place_lt_of_lt less (show behind - 1 ≤ source.length by omega)
      omega

theorem before (covers : span.Covers source first behind)
    (covers' : span'.Covers source first' behind') (ordered : behind ≤ first') :
    span.region.Before span'.region := by
  have filled := covers.filled
  have filled' := covers'.filled
  have inside := covers'.inside
  have := place_lt_of_lt (show behind - 1 < first' by omega)
    (show first' ≤ source.length by omega)
  simp only [Region.Before, region, Region.first, Region.behind, Prod.Lex.toLex_le_toLex,
    covers'.startLine, covers'.startColumn, covers.endLine, covers.endColumn]
  omega

/-- The region of a part of a stretch lies inside the region of the stretch. -/
theorem within (covers : span.Covers source first behind)
    (covers' : span'.Covers source first' behind') (after : first' ≤ first)
    (upTo : behind ≤ behind') :
    span.region.Within span'.region := by
  have filled := covers.filled
  have inside := covers'.inside
  simp only [Region.Within, region, Region.first, Region.behind, Prod.Lex.toLex_le_toLex,
    covers.startLine, covers.startColumn, covers'.startLine, covers'.startColumn, covers.endLine,
    covers.endColumn, covers'.endLine, covers'.endColumn]
  constructor
  · rcases Nat.eq_or_lt_of_le after with rfl | less
    · omega
    · have := place_lt_of_lt less (show first ≤ source.length by omega)
      omega
  · rcases Nat.eq_or_lt_of_le upTo with rfl | less
    · omega
    · have := place_lt_of_lt (show behind - 1 < behind' - 1 by omega)
        (show behind' - 1 ≤ source.length by omega)
      omega

end Span.Covers

/-! ## Nodes one behind the other -/

namespace Grammar.Laid

variable {source : List Char} {first behind : Nat} {nodes : List (Node Span)}

theorem le (laid : Laid source first nodes behind) : first ≤ behind := by
  induction laid with
  | nothing ordered => exact ordered
  | node after covers more ih => exact Nat.le_trans after (Nat.le_trans covers.filled.le ih)

theorem filter (keep : Node Span → Bool) (laid : Laid source first nodes behind) :
    Laid source first (nodes.filter keep) behind := by
  induction laid with
  | nothing ordered => exact .nothing ordered
  | @node first start stop behind node nodes after covers more ih =>
    rw [List.filter_cons]
    split
    · exact .node after covers ih
    · exact ih.weaken (Nat.le_trans after (Nat.le_of_lt covers.filled))

theorem covers_of_mem (laid : Laid source first nodes behind) {node : Node Span}
    (member : node ∈ nodes) :
    ∃ start stop, first ≤ start ∧ stop ≤ behind ∧ node.mark.Covers source start stop := by
  induction laid with
  | nothing => cases member
  | @node first start stop behind head nodes after covers more ih =>
    have ends : stop ≤ behind := more.le
    rcases List.mem_cons.mp member with rfl | inRest
    · exact ⟨start, stop, after, ends, covers⟩
    · obtain ⟨start', stop', after', upTo, covers'⟩ := ih inRest
      exact ⟨start', stop', by have := covers.filled; omega, upTo, covers'⟩

theorem pairwise (laid : Laid source first nodes behind) :
    (nodes.map (·.mark.region)).Pairwise Region.Before := by
  induction laid with
  | nothing => exact .nil
  | @node first start stop behind head nodes after covers more ih =>
    rw [List.map_cons, List.pairwise_cons]
    refine ⟨fun region member => ?_, ih⟩
    obtain ⟨node, inRest, rfl⟩ := List.mem_map.mp member
    obtain ⟨start', stop', after', -, covers'⟩ := more.covers_of_mem inRest
    exact covers.before covers' after'

end Grammar.Laid

/-! ## Landmarks and nodes -/

/-- What a node is known as among the landmarks: by which name and as what, and what is selected for
it. Only classes, methods, modules in use, single variables that are assigned, and fields are. -/
def Node.plaque? : Node Span → Option (String × LandmarkKind × Span)
  | .stmt (.classBare name _ mark) | .stmt (.classFields name _ _ mark) =>
    some (name, .declaredClass, mark)
  | .stmt (.methodValue shared name _ _ mark) | .stmt (.methodBlock shared name _ _ mark) =>
    some (if shared then "self::" ++ name else name, .method, mark)
  | .stmt (.use path mark) => some ("::".intercalate path, .usedModule, mark)
  | .stmt (.assign (.variable name mark) _ _ _) => some (name, .variable, mark)
  | .param field => some (field.name, .field, field.mark)
  | _ => none

def Node.landmarks (nodes : List (Node Span)) : List (Node Span) :=
  nodes.filter (·.plaque?.isSome)

theorem Node.selection_of_plaque? {node : Node Span} {name : String} {kind : LandmarkKind}
    {selection : Span} (plaque : node.plaque? = some (name, kind, selection)) :
    selection = node.mark ∨ ∃ child ∈ node.children, selection = child.mark := by
  unfold Node.plaque? at plaque
  split at plaque <;> cases plaque
  case h_6 => exact .inr ⟨_, List.mem_cons_self, rfl⟩
  all_goals exact .inl rfl

namespace Session.Landmark

def region : Landmark → Region
  | .mk _ _ _ region _ _ => region

def selection : Landmark → Region
  | .mk _ _ _ _ selection _ => selection

def children : Landmark → List Landmark
  | .mk _ _ _ _ _ children => children

/-- A landmark is one of a forest, or within one that is. -/
inductive Among (items : List Landmark) : Landmark → Prop where
  | item {landmark : Landmark} (member : landmark ∈ items) :
      Among items landmark
  | child {parent landmark : Landmark} (among : Among items parent)
      (member : landmark ∈ parent.children) :
      Among items landmark

/-- What an editor asks of a landmark: proper regions, the selection inside its region, and the
landmarks within it inside this region as well, one behind the other. -/
structure Nests (landmark : Landmark) : Prop where
  proper : landmark.region.IsProper
  properSelection : landmark.selection.IsProper
  selected : landmark.selection.Within landmark.region
  inside : ∀ child ∈ landmark.children, child.region.Within landmark.region
  ordered : (landmark.children.map Landmark.region).Pairwise Region.Before

end Session.Landmark

/-- A node is shown as a landmark, which is known as the node is and covers it. The landmarks within
it show those among the children of a class, one for one and in order. -/
inductive Node.ShownAs : Node Span → Landmark → Prop where
  | leaf {node : Node Span} {name : String} {kind : LandmarkKind} {selection : Span}
      {detail : Option String} (plaque : node.plaque? = some (name, kind, selection))
      (notClass : kind ≠ .declaredClass) :
      Node.ShownAs node (.mk name kind detail node.mark.region selection.region [])
  | nest {node : Node Span} {name : String} {selection : Span} {detail : Option String}
      {children : List Landmark} (plaque : node.plaque? = some (name, .declaredClass, selection))
      (inner : List.Forall₂ Node.ShownAs (Node.landmarks node.children) children) :
      Node.ShownAs node
        (.mk name .declaredClass detail node.mark.region selection.region children)

namespace Session

theorem exists_shownAs {nodes : List (Node Span)} {items : List Landmark}
    (shown : List.Forall₂ Node.ShownAs nodes items) {landmark : Landmark}
    (member : landmark ∈ items) :
    ∃ node ∈ nodes, node.ShownAs landmark := by
  induction shown with
  | nil => cases member
  | cons first more ih =>
    rcases List.mem_cons.mp member with rfl | inRest
    · exact ⟨_, List.mem_cons_self, first⟩
    · obtain ⟨node, inNodes, isShown⟩ := ih inRest
      exact ⟨node, List.mem_cons_of_mem _ inNodes, isShown⟩

theorem pairwise_of_laid {source : List Char} {first behind : Nat} {nodes : List (Node Span)}
    {items : List Landmark} (shown : List.Forall₂ Node.ShownAs nodes items)
    (laid : Laid source first nodes behind) :
    (items.map Landmark.region).Pairwise Region.Before := by
  have regions : items.map Landmark.region = nodes.map (·.mark.region) := by
    clear laid
    induction shown with
    | nil => rfl
    | cons isShown more ih => cases isShown <;> simp [Landmark.region, ih]
  rw [regions]
  exact laid.pairwise

/-! ## The landmarks of a program -/

/-- A statement is a landmark exactly if it is known as one. -/
theorem isSome_landmark? (stmt : Stmt Span) :
    (landmark? stmt).isSome = (Node.stmt stmt).plaque?.isSome := by
  cases stmt with
  | assign target => cases target <;> rfl
  | _ => rfl

theorem shownAs_fields (fields : List (Param Span)) :
    List.Forall₂ Node.ShownAs (Node.landmarks (fields.map .param))
      (fields.map fieldLandmark) := by
  induction fields with
  | nil => exact .nil
  | cons field rest ih => exact .cons (.leaf rfl nofun) ih

mutual

theorem shownAs_landmark? (stmt : Stmt Span) {landmark : Landmark}
    (isLandmark : landmark? stmt = some landmark) :
    (Node.stmt stmt).ShownAs landmark := by
  cases stmt with
  | classBare name body =>
    cases isLandmark
    exact .nest rfl (shownAs_landmarks body)
  | classFields name fields body =>
    cases isLandmark
    refine .nest rfl ?_
    rw [Node.landmarks, Node.children, Stmt.children, List.filter_append]
    exact List.rel_append (shownAs_fields fields) (shownAs_landmarks body)
  | methodValue | methodBlock | use =>
    cases isLandmark
    exact .leaf rfl nofun
  | assign target =>
    cases target with
    | «variable» =>
      cases isLandmark
      exact .leaf rfl nofun
    | _ => cases isLandmark
  | _ => cases isLandmark

/-- The landmarks among statements show those of them that are landmarks. -/
theorem shownAs_landmarks (stmts : List (Stmt Span)) :
    List.Forall₂ Node.ShownAs (Node.landmarks (stmts.map .stmt)) (landmarks stmts) := by
  cases stmts with
  | nil => exact .nil
  | cons first rest =>
    have more := shownAs_landmarks rest
    rw [landmarks, Node.landmarks, List.map_cons, List.filter_cons, ← isSome_landmark?]
    cases isLandmark : landmark? first with
    | none => exact more
    | some landmark => exact .cons (shownAs_landmark? first isLandmark) more

end

section

variable {limit : Limit} {source : String} {program : Program Span} {landmark : Landmark}

theorem exists_shownAs_of_among (among : Landmark.Among (landmarks program.body) landmark) :
    ∃ node, program.Has node ∧ node.ShownAs landmark := by
  induction among with
  | item member =>
    obtain ⟨node, inNodes, isShown⟩ := exists_shownAs (shownAs_landmarks program.body) member
    obtain ⟨stmt, inBody, rfl⟩ := List.mem_map.mp (List.mem_of_mem_filter inNodes)
    exact ⟨_, .body inBody, isShown⟩
  | child among member ih =>
    obtain ⟨node, has, isShown⟩ := ih
    cases isShown with
    | leaf => cases member
    | nest plaque inner =>
      obtain ⟨child, inNodes, childShown⟩ := exists_shownAs inner member
      exact ⟨child, .child has (List.mem_of_mem_filter inNodes), childShown⟩

theorem nests_of_shownAs {node : Node Span} (read : Program.ofText limit source = .ok program)
    (has : program.Has node) (shown : node.ShownAs landmark) :
    landmark.Nests := by
  obtain ⟨rows, -⟩ := Program.rows_of_ofText read
  obtain ⟨_, _, _, tokens, fits⟩ := rows.fitsNode has
  obtain ⟨start, behind, stands⟩ := fits.stands tokens
  have own := stands.covers
  have below : ∀ child ∈ node.children,
      child.mark.region.IsProper ∧ child.mark.region.Within node.mark.region := by
    intro child isChild
    obtain ⟨start', stop', after, upTo, covers⟩ := stands.children.covers_of_mem isChild
    exact ⟨covers.isProper, covers.within own after upTo⟩
  have selects : ∀ {name kind selection}, node.plaque? = some (name, kind, selection) →
      selection.region.IsProper ∧ selection.region.Within node.mark.region := by
    intro name kind selection plaque
    rcases Node.selection_of_plaque? plaque with rfl | ⟨child, isChild, rfl⟩
    · exact ⟨own.isProper, own.within own (Nat.le_refl _) (Nat.le_refl _)⟩
    · exact below child isChild
  cases shown with
  | leaf plaque notClass =>
    exact ⟨own.isProper, (selects plaque).1, (selects plaque).2, nofun, .nil⟩
  | nest plaque inner =>
    refine ⟨own.isProper, (selects plaque).1, (selects plaque).2, fun item member => ?_,
      pairwise_of_laid inner (stands.children.filter _)⟩
    obtain ⟨child, inNodes, isShown⟩ := exists_shownAs inner member
    cases isShown <;> exact (below child (List.mem_of_mem_filter inNodes)).2

end

/-- **The landmarks of a text.** If the text of a document can be read, an editor that asks for its
landmarks is told a forest in which every landmark nests and the outermost ones are in order. They
show the statements of the program that are landmarks, one for one and in order, and those within a
class its fields and the statements in it that are landmarks. -/
theorem landmarks_well_nested {machine : Machine} {files : Files} {folder : Path}
    {session : Session} {uri source : String} {settings : Settings} {limit : Limit}
    {program : Program Span}
    (known : session.get? uri = some (Document.analyse machine settings source))
    (isLimit : settings.nesting machine = .ok limit)
    (read : Program.ofText limit source = .ok program) :
    session.handle machine files folder (.symbols uri) =
        (.ok (.landmarks (landmarks program.body)), session) ∧
      (∀ landmark, Landmark.Among (landmarks program.body) landmark → landmark.Nests) ∧
      ((landmarks program.body).map Landmark.region).Pairwise Region.Before ∧
      List.Forall₂ Node.ShownAs (Node.landmarks (program.body.map .stmt))
        (landmarks program.body) := by
  have isProgram : session.program? uri = some program := by
    simp only [Session.program?, known, Option.bind_some, Document.analyse, isLimit, read,
      Document.program?]
  have shown := shownAs_landmarks program.body
  obtain ⟨rows, -⟩ := Program.rows_of_ofText read
  have laid := (rows.laid (Reading.ofText_placed source)).filter (·.plaque?.isSome)
  refine ⟨?_, fun landmark among => ?_, pairwise_of_laid shown laid, shown⟩
  · rw [handle, landmarksOf, isProgram]
  · obtain ⟨node, has, isShown⟩ := exists_shownAs_of_among among
    exact nests_of_shownAs read has isShown

/-- A class with a field and a variable whose value reaches over two lines. -/
theorem landmarks_well_nested_class :
    let source := "class P(x)\n  z = 'a\nb'\nend\n"
    let session := Session.empty.put "untitled:a" (Document.analyse .roomy .standard source)
    ∃ items, session.handle .roomy .empty [] (.symbols "untitled:a") =
        (.ok (.landmarks items), session) ∧
      items.map (fun item => (item.region, item.children.map Landmark.region)) =
        [(⟨0, 0, 3, 3⟩, [⟨0, 8, 0, 9⟩, ⟨1, 2, 2, 2⟩])] ∧
      ∀ landmark, Landmark.Among items landmark → landmark.Nests := by
  intro source session
  have passes : (Program.ofText (.ofInt 32 32) source).toOption.any (fun program =>
      (landmarks program.body).map (fun item => (item.region, item.children.map Landmark.region)) ==
        [(⟨0, 0, 3, 3⟩, [⟨0, 8, 0, 9⟩, ⟨1, 2, 2, 2⟩])]) = true := by decide +kernel
  obtain ⟨program, read, isRegions⟩ := Program.exists_of_any passes
  have known : session.get? "untitled:a" = some (Document.analyse .roomy .standard source) :=
    rfl
  obtain ⟨replied, nests, -⟩ := landmarks_well_nested known rfl read
  exact ⟨_, replied, eq_of_beq isRegions, nests⟩

end Session

end Parlance
