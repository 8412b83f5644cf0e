import Parlance.Proofs.Layout.Compositor
import Parlance.Proofs.Layout.Reprinting

/-!
Contract: what it means that a phrase is set by the compositor.

Owns: what the layout of a tree leaves behind, these statements for every kind of phrase
(`Phrase.Typeset`), and the laws of names, of bracketed lists and of the lines of blocks. Does not
own: the laws of the other constructs.
-/

namespace Parlance

open Grammar Layout Lexeme

variable {σ : Type}

/-! ## What trees leave behind -/

mutual

/-- What an expression leaves behind, if it stands behind so many commas of a row of names. -/
def Expr.seam (chain : Nat) : Expr σ → Seam
  | .variable _ _ => .name chain
  | .path _ _ | .access _ _ _ => .name 0
  | .tuple _ _ | .grouping _ _ => .grouped
  | .unary _ operand _ => operand.seam 0
  | .binary _ _ right _ => right.seam 0
  | .ifLine _ thenDo _ => thenDo.seam
  | .ifLineElse _ _ elseDo _ => elseDo.seam
  | _ => .operand

/-- What a statement leaves behind. -/
def Stmt.seam : Stmt σ → Seam
  | .use _ _ => .path
  | .breakLoop _ | .continueLoop _ | .returnNothing _ => .apart
  | .methodValue _ _ _ value _ | .returnValue value _ | .assign _ _ value _
  | .expression value _ => value.seam 0
  | _ => .operand

end

mutual

theorem Expr.isSettled_seam (chain : Nat) (value : Expr σ) :
    (value.seam chain).isSettled = true := by
  cases value with
  | unary _ operand _ => exact Expr.isSettled_seam 0 operand
  | binary _ _ right _ => exact Expr.isSettled_seam 0 right
  | ifLine _ thenDo _ => exact Stmt.isSettled_seam thenDo
  | ifLineElse _ _ elseDo _ => exact Stmt.isSettled_seam elseDo
  | _ => rfl

theorem Stmt.isSettled_seam (stmt : Stmt σ) : stmt.seam.isSettled = true := by
  cases stmt with
  | methodValue _ _ _ value _ => exact Expr.isSettled_seam 0 value
  | returnValue value _ => exact Expr.isSettled_seam 0 value
  | assign _ _ value _ => exact Expr.isSettled_seam 0 value
  | expression value _ => exact Expr.isSettled_seam 0 value
  | _ => rfl

end

theorem Expr.seam_ne_line (chain : Nat) (value : Expr σ) : value.seam chain ≠ .line := by
  intro same
  simpa [same, Seam.isSettled] using value.isSettled_seam chain

theorem Stmt.seam_ne_line (stmt : Stmt σ) : stmt.seam ≠ .line := by
  intro same
  simpa [same, Seam.isSettled] using stmt.isSettled_seam

/-! ## Phrases -/

/-- An expression is set wherever one may begin. -/
structure Expr.Typeset (words : List Lexeme) (value : Expr Unit) : Prop where
  leads : ∀ level, (value.layout level).leads = true
  enters : ∀ frames seam, seam.isReady = true →
    Enters ⟨frames, seam⟩ (words.map item) (value.layout (depth frames))
      ⟨frames, value.seam seam.chain⟩

/-- An operand is set, and what it leaves behind ends an operand. -/
structure Expr.OperandTypeset (words : List Lexeme) (value : Expr Unit) : Prop
    extends Expr.Typeset words value where
  ends : ∀ chain, (value.seam chain).isOperand = true

/-- Behind a keyword or an operator, an expression has a space before it. -/
theorem Expr.Typeset.spaced {words : List Lexeme} {value : Expr Unit}
    (inner : Expr.Typeset words value) (frames : List Frame) :
    Sets ⟨frames, .apart⟩ (words.map item) (.space :: value.layout (depth frames))
      ⟨frames, value.seam 0⟩ :=
  (inner.enters frames .apart rfl).spaced (inner.leads _) rfl

/-- A statement is set wherever one may begin, and a declaration where a line begins. -/
structure Stmt.Typeset (words : List Lexeme) (stmt : Stmt Unit) : Prop where
  leads : ∀ level, (stmt.layout level).leads = true
  enters : ∀ frames seam, seam.isFresh = true → (stmt.declares = true → seam.beginsLine = true) →
    Enters ⟨frames, seam⟩ (words.map item) (stmt.layout (depth frames)) ⟨frames, stmt.seam⟩

/-- A statement is set, and it declares nothing. -/
structure Stmt.ShortTypeset (words : List Lexeme) (stmt : Stmt Unit) : Prop
    extends Stmt.Typeset words stmt where
  noDeclaration : stmt.declares = false

theorem Stmt.ShortTypeset.spaced {words : List Lexeme} {stmt : Stmt Unit}
    (inner : Stmt.ShortTypeset words stmt) (frames : List Frame) :
    Sets ⟨frames, .apart⟩ (words.map item) (.space :: stmt.layout (depth frames))
      ⟨frames, stmt.seam⟩ :=
  (inner.enters frames .apart rfl (by simp [inner.noDeclaration])).spaced (inner.leads _) rfl

/-- The items of a page: statements with a line break behind each, and blank lines. -/
inductive Layout.Paged : List Item → List (Stmt Unit) → Prop where
  | nil : Paged [] []
  | blank {items : List Item} {body : List (Stmt Unit)} (rest : Paged items body) :
      Paged (.line 0 :: items) body
  | row {words : List Lexeme} {items : List Item} {stmt : Stmt Unit} {body : List (Stmt Unit)}
      (first : Stmt.Typeset words stmt) (rest : Paged items body) :
      Paged (bare (stmt.layout 0) ++ .line 0 :: items) (stmt :: body)

/-- The lines of a block are set, each by itself, behind the header of a block, whatever the line
behind them holds, and as a page. -/
structure Stmt.LinesTypeset (words : List Lexeme) (body : List (Stmt Unit)) : Prop where
  each : ∀ stmt ∈ body, ∃ row, Stmt.Typeset row stmt
  block : ∀ frames isOpen seam items back after, seam ≠ .line →
    Copies ⟨.block true :: frames, .line⟩ items back (.line (depth frames) :: back) after →
    Sets ⟨.block isOpen :: frames, seam⟩ (.line 0 :: (words.map item ++ items))
      (lines (depth frames + 1) (Stmt.layouts (depth frames + 1) body) ++
        .line (depth frames) :: back) after
  page : (Compositor.run ⟨[.page], .line⟩ (words.map item)).isSome = true →
    Paged (words.map item) body

/-- Whether a bracket may hold items of the given kind. -/
def Layout.Frame.holds : Frame → Part → Bool
  | .group _, .expression | .plain, .expression | .plain, .entry | .params, .param => true
  | _, _ => false

/-- An item of a list is set between its commas. -/
structure Grammar.Part.Typeset (part : Part) (words : List Lexeme)
    (value : part.Tree Unit) : Prop where
  leads : ∀ level, (part.layout level value).leads = true
  enters : ∀ frame frames seam, frame.holds part = true → seam.isListed = true →
    ∃ last, last.isSettled = true ∧
      Enters ⟨frame :: frames, seam⟩ (words.map item) (part.layout (depth frames) value)
        ⟨frame :: frames, last⟩

/-- The words of a list through its closing bracket are those of its layout. A comma stands at the
end only behind the only element of a tuple. -/
def Grammar.Part.Listed (part : Part) (bracket : Bracket) (frame : Frame) (frames : List Frame)
    (seam : Seam) (list : List (part.Tree Unit) × Bool) (items : List Item) : Prop :=
  (items = bare (commas (part.layouts (depth frames) list.1) ++ [.word bracket.close.spelling]) ∧
      (list.1 = [] → seam = .start ∨ frame = .group 1) ∧ (list.2 = true → 2 ≤ list.1.length)) ∨
    (items = bare (commas (part.layouts (depth frames) list.1) ++
        [.word ",", .word bracket.close.spelling]) ∧
      list.2 = true ∧ list.1.length = 1 ∧ frame = .group 0)

/-- A list is set from behind its opening bracket through its closing one. -/
structure Grammar.Part.ItemsTypeset (part : Part) (bracket : Bracket) (words : List Lexeme)
    (list : List (part.Tree Unit) × Bool) : Prop where
  each : ∀ value ∈ list.1, ∃ row, part.Typeset row value
  tidy : ∀ frame frames seam, frame.holds part = true → seam.isListed = true →
    (Compositor.run ⟨frame :: frames, seam⟩ (words.map item)).isSome = true →
      part.Listed bracket frame frames seam list (words.map item)

/-- What it means for each kind of phrase to be set. -/
def Grammar.Phrase.Typeset : (phrase : Phrase) → List Lexeme → phrase.Tree Unit → Prop
  | .lines _, words, body => Stmt.LinesTypeset words body
  | .nestedLines _, words, body => Stmt.LinesTypeset words body
  | .statement, words, stmt => Stmt.Typeset words stmt
  | .short _, words, stmt => Stmt.ShortTypeset words stmt
  | .expression _, words, value => Expr.Typeset words value
  | .nested _, words, value => Expr.Typeset words value
  | .binary _, words, value => Expr.OperandTypeset words value
  | .prefixed _, words, value => Expr.OperandTypeset words value
  | .indexed, words, value => Expr.OperandTypeset words value
  | .members, words, value => Expr.OperandTypeset words value
  | .primary, words, value => Expr.OperandTypeset words value
  | .item part, words, value => part.Typeset words value
  | .items part bracket, words, list => part.ItemsTypeset bracket words list

namespace Layout

/-! ## Names -/

section Names

variable {frames : List Frame} {seam : Seam} {words : List Lexeme} {names : List String}

theorem leads_name {name : String} (isName : IsName name) (back : Layout) :
    leads (.word name :: back) = true := by
  obtain ⟨first, more, spelling, -⟩ := isName.starts
  simp [leads, Item.leads, Item.kind, (Spelt.name isName).isKind, Kind.clings, Kind.outdents,
    Item.chars, spelling]

theorem next_name (ready : seam.isReady = true) :
    Compositor.next ⟨frames, seam⟩ .name = some ⟨frames, .name seam.chain⟩ := by
  cases seam <;> first | contradiction | rfl

theorem names_cons (first : String) (filled : names ≠ []) :
    Layout.names (first :: names) = .word first :: .word "," :: .space :: Layout.names names := by
  cases names with
  | nil => contradiction
  | cons second others => rfl

theorem path_cons (first : String) (filled : names ≠ []) :
    path (first :: names) = .word first :: .word "::" :: path names := by
  cases names with
  | nil => contradiction
  | cons second others => rfl

theorem leads_names (filled : names ≠ []) (areNames : ∀ name ∈ names, IsName name) :
    (Layout.names names).leads = true := by
  match names, filled with
  | [only], _ => exact leads_name (areNames only (by simp)) _
  | first :: second :: others, _ => exact leads_name (areNames first (by simp)) _

theorem leads_path (filled : names ≠ []) (areNames : ∀ name ∈ names, IsName name) :
    (path names).leads = true := by
  match names, filled with
  | [only], _ => exact leads_name (areNames only (by simp)) _
  | first :: second :: others, _ => exact leads_name (areNames first (by simp)) _

/-- Names and the commas between them. The commas stay counted until it is known whether the names
are assigned to. -/
theorem enters_names (filled : names ≠ []) (areNames : ∀ name ∈ names, IsName name)
    (ready : seam.isReady = true) :
    Enters ⟨frames, seam⟩ (bare (Layout.names names)) (Layout.names names)
      ⟨tally (names.length - 1) frames, .name (seam.chain + (names.length - 1))⟩ := by
  induction names generalizing frames seam with
  | nil => contradiction
  | cons first others ih =>
    have spelt := Spelt.name (areNames first (by simp))
    cases others with
    | nil =>
      rw [show tally ([first].length - 1) frames = frames from tally_zero frames]
      exact .word spelt (next_name ready) .nil
    | cons second others =>
      have areOthers : ∀ name ∈ second :: others, IsName name := fun name member =>
        areNames name (by simp [member])
      have tail : Enters ⟨tally 1 frames, .comma (seam.chain + 1)⟩ _ _ _ :=
        ih (by simp) areOthers rfl
      have length : (second :: others).length - 1 + 1 =
          (first :: second :: others).length - 1 := rfl
      rw [tally_tally, Nat.add_comm 1, length, Seam.chain, Nat.add_assoc, Nat.add_comm 1,
        length] at tail
      exact .word spelt (next_name ready) (.tight (.symbol .comma) rfl rfl
        (tail.spaced (leads_names (by simp) areOthers) rfl))

theorem items_names (joined : Joined [.symbol .comma] words names)
    (legible : ∀ word ∈ words, word.Legible) :
    words.map item = bare (Layout.names names) := by
  induction joined with
  | one isName => simp [item_name isName, Layout.names, commas]
  | more isName isJoint rest ih =>
    obtain ⟨-, legibleJoint, others⟩ := by simpa using legible
    rw [names_cons _ (rest.areNames others).1]
    simp [item_name isName, legibleJoint.item_symbol (by simpa using isJoint),
      ih others, Symbol.spelling]

theorem sets_path (joined : Joined [.symbol .doubleColon] words names)
    (legible : ∀ word ∈ words, word.Legible) :
    Sets ⟨frames, .start⟩ (words.map item) (path names) ⟨frames, .name 0⟩ := by
  induction joined with
  | @one name isName =>
    simp only [List.map_cons, List.map_nil, item_name isName]
    exact .tight (.name ((legible name (by simp)).isName isName)) rfl rfl .nil
  | @more name joint words names isName isJoint rest ih =>
    obtain ⟨legibleName, legibleJoint, others⟩ := by simpa using legible
    have isColons : joint.kind = .symbol .doubleColon := by simpa using isJoint
    simp only [List.map_cons, item_name isName, legibleJoint.item_symbol isColons,
      path_cons _ (rest.areNames others).1]
    refine .tight (.name (legibleName.isName isName)) rfl rfl ?_
    exact .tight (.symbol .doubleColon) rfl rfl (ih others)

theorem enters_modulePath (joined : Joined [.symbol .doubleColon, .symbol .dot] words names)
    (legible : ∀ word ∈ words, word.Legible) (isTitle : seam = .title ∨ seam = .joint) :
    Enters ⟨frames, seam⟩ (words.map item) (path names) ⟨frames, .path⟩ := by
  have step : Compositor.next ⟨frames, seam⟩ .name = some ⟨frames, .path⟩ := by
    rcases isTitle with rfl | rfl <;> rfl
  induction joined generalizing seam with
  | @one name isName =>
    simp only [List.map_cons, List.map_nil, item_name isName]
    exact .word (.name ((legible name (by simp)).isName isName)) step .nil
  | @more name joint words names isName isJoint rest ih =>
    obtain ⟨legibleName, legibleJoint, others⟩ := by simpa using legible
    obtain ⟨filled, areNames⟩ := rest.areNames others
    have spelt := Spelt.name (legibleName.isName isName)
    have tail : Sets ⟨frames, .joint⟩ (words.map item) (path names) ⟨frames, .path⟩ := by
      have enters := ih others (.inr rfl) rfl
      rwa [Enters, lead_joint] at enters
    have whole : Enters ⟨frames, seam⟩ (.word name.text :: .word "::" :: words.map item)
        (path (name.text :: names)) ⟨frames, .path⟩ := by
      rw [path_cons _ filled]
      exact .word spelt step (.tight (.symbol .doubleColon) rfl rfl tail)
    simp only [List.map_cons, item_name isName]
    rcases (by simpa using isJoint : joint.kind = .symbol .doubleColon ∨
      joint.kind = .symbol .dot) with isColons | isDot
    · rw [legibleJoint.item_symbol isColons]
      exact whole
    · refine ⟨whole.lays, fun taken => ?_⟩
      obtain ⟨_, next, taken⟩ := Compositor.exists_of_run_cons taken
      obtain ⟨_, refused, -⟩ := Compositor.exists_of_run_cons taken
      rw [Item.kind, spelt.isKind, step, Option.some.injEq] at next
      rw [legibleJoint.item_kind, isDot, ← next] at refused
      contradiction

end Names

/-! ## Bracketed lists -/

section Lists

variable {frame : Frame} {frames : List Frame} {seam : Seam} {layouts : List Layout}
variable {part : Part} {bracket : Bracket} {words front back : List Lexeme}

/-- A layout that is set between the commas of a list, however many there are. -/
structure IsElement (frame : Frame) (frames : List Frame) (layout : Layout) : Prop where
  leads : layout.leads = true
  enters : ∀ commas seam, seam.isListed = true → ∃ last, last.isSettled = true ∧
    Enters ⟨frame.count commas :: frames, seam⟩ layout.bare layout
      ⟨frame.count commas :: frames, last⟩

theorem Frame.holds_count (commas : Nat) (frame : Frame) (part : Part) :
    (frame.count commas).holds part = frame.holds part := by
  cases frame <;> cases part <;> rfl

theorem Frame.closed_count (commas : Nat) (frame : Frame) :
    (frame.count commas).closed = frame.closed := by
  cases frame <;> rfl

/-- A closing bracket closes a list, unless it stands behind a comma. -/
theorem Compositor.next_close (holds : frame.holds part = true)
    (ended : seam = .start ∨ seam.isSettled = true) :
    Compositor.next ⟨frame :: frames, seam⟩ (.symbol bracket.close) =
      some ⟨frames, frame.closed⟩ := by
  have closes : frame.closes seam = true := by
    rcases ended with rfl | settled
    · cases frame <;> first | rfl | (cases part <;> contradiction)
    · cases seam <;> first
        | contradiction
        | (cases frame <;> first | rfl | (cases part <;> contradiction))
  have next : Compositor.next ⟨frame :: frames, seam⟩ (.symbol bracket.close) =
      Compositor.closed ⟨frame :: frames, seam⟩ := by cases bracket <;> rfl
  rw [next, Compositor.closed]
  exact if_pos closes

theorem sets_close (holds : frame.holds part = true)
    (ended : seam = .start ∨ seam.isSettled = true) :
    Sets ⟨frame :: frames, seam⟩ [.word bracket.close.spelling] [.word bracket.close.spelling]
      ⟨frames, frame.closed⟩ := by
  have clings : Kind.clings (.symbol bracket.close) = true := by cases bracket <;> rfl
  exact .tight (.symbol bracket.close) (gap_of_clings _ clings)
    (Compositor.next_close holds ended) .nil

theorem enters_commas (each : ∀ layout ∈ layouts, IsElement frame frames layout)
    (filled : layouts ≠ []) (count : Nat) (listed : seam.isListed = true) :
    (commas layouts).leads = true ∧ ∃ last, last.isSettled = true ∧
      Enters ⟨frame.count count :: frames, seam⟩ (commas layouts).bare (commas layouts)
        ⟨frame.count (count + (layouts.length - 1)) :: frames, last⟩ := by
  induction layouts generalizing count seam with
  | nil => contradiction
  | cons first others ih =>
    have element := each first (by simp)
    cases others with
    | nil => exact ⟨element.leads, element.enters count seam listed⟩
    | cons second others =>
      obtain ⟨last, settled, enters⟩ := element.enters count seam listed
      have again : last.afterComma.isListed = true ∧ last.afterComma.spaces = true := by
        cases last <;> exact ⟨rfl, rfl⟩
      obtain ⟨leads, final, settledFinal, tail⟩ := ih
        (fun layout member => each layout (by simp [member])) (by simp) (count + 1) again.1
      refine ⟨leads_append element.leads _, final, settledFinal, ?_⟩
      have step : Compositor.next ⟨frame.count count :: frames, last⟩ (.symbol .comma) =
          some ⟨frame.count (count + 1) :: frames, last.afterComma⟩ := by
        rw [← Frame.count_count]
        rfl
      have whole := Enters.append element.leads enters
        (.tight (.symbol .comma) (gap_of_clings _ rfl) step (tail.spaced leads again.2))
      have length : count + 1 + ((second :: others).length - 1) =
          count + ((first :: second :: others).length - 1) := by simp; omega
      rw [length] at whole
      have layout : commas (first :: second :: others) =
          first ++ (.word "," :: .space :: commas (second :: others)) := rfl
      rw [layout, bare_append]
      exact whole

theorem sets_list (holds : frame.holds part = true)
    (each : ∀ layout ∈ layouts, IsElement frame frames layout) :
    Sets ⟨frame :: frames, .start⟩ (bare (commas layouts ++ [.word bracket.close.spelling]))
      (commas layouts ++ [.word bracket.close.spelling]) ⟨frames, frame.closed⟩ := by
  cases layouts with
  | nil =>
    exact sets_close holds (.inl rfl)
  | cons first others =>
    obtain ⟨-, last, settled, enters⟩ :=
      enters_commas each (by simp) 0 (show Seam.start.isListed = true from rfl)
    rw [Frame.count_zero] at enters
    rw [bare_append, ← Frame.closed_count (0 + ((first :: others).length - 1)) frame]
    exact enters.sets.append
      (sets_close ((Frame.holds_count _ frame part).trans holds) (.inr settled))

/-- The only element of a tuple, the comma behind it and the closing parenthesis. -/
theorem sets_onlyElement {layout : Layout} (element : IsElement (.group 0) frames layout) :
    Sets ⟨.group 0 :: frames, .start⟩ (bare (layout ++ [.word ",", .word ")"]))
      (layout ++ [.word ",", .word ")"]) ⟨frames, .grouped⟩ := by
  obtain ⟨last, settled, enters⟩ := element.enters 0 .start rfl
  have close : Compositor.next ⟨.group 1 :: frames, last.afterComma⟩ (.symbol .rparen) =
      some ⟨frames, .grouped⟩ := by
    cases last <;> rfl
  rw [bare_append]
  exact enters.sets.append (.tight (.symbol .comma) (gap_of_clings _ rfl) rfl
    (.tight (.symbol .rparen) (gap_of_clings _ rfl) close .nil))

theorem depth_of_holds (holds : frame.holds part = true) :
    depth (frame :: frames) = depth frames := by
  cases frame with
  | block isOpen => cases part <;> contradiction
  | group | params | plain | page => rfl

theorem eq_nil_of_breaks {items : List Item} (breaks : Breaks front)
    (holds : frame.holds part = true)
    (taken : (Compositor.run ⟨frame :: frames, seam⟩ (front.map item ++ items)).isSome = true) :
    front = [] := by
  cases front with
  | nil => rfl
  | cons word front =>
    obtain ⟨_, next, -⟩ := Compositor.exists_of_run_cons taken
    have isLine : word.item = .line 0 := by simp [item, breaks word (by simp)]
    rw [isLine] at next
    cases frame with
    | block | page => cases part <;> contradiction
    | group | params | plain => contradiction

end Lists

end Layout

/-! ## Rules of bracketed lists -/

section Items

variable {part : Part} {bracket : Bracket} {words front back rest : List Lexeme}
variable {closing comma : Lexeme}

/-- An item of a list that is taken is its layout, without line breaks before or behind it. -/
theorem Grammar.Part.Typeset.taken {frame : Frame} {frames : List Frame} {seam : Seam}
    {value : part.Tree Unit} {items : List Item} (typeset : part.Typeset words value)
    (before : Breaks front) (after : Breaks back) (holds : frame.holds part = true)
    (listed : seam.isListed = true) (taken : (Compositor.run ⟨frame :: frames, seam⟩
      (front.map item ++ (words.map item ++ (back.map item ++ items)))).isSome = true) :
    front.map item ++ (words.map item ++ (back.map item ++ items)) =
        bare (part.layout (depth frames) value) ++ items ∧
      ∃ last, last.isSettled = true ∧
        (Compositor.run ⟨frame :: frames, last⟩ items).isSome = true := by
  obtain rfl := eq_nil_of_breaks before holds taken
  obtain ⟨last, settled, enters⟩ := typeset.enters frame frames seam holds listed
  obtain ⟨same, takenBack⟩ := enters.taken taken
  obtain rfl := eq_nil_of_breaks after holds takenBack
  exact ⟨by simp [same], last, settled, takenBack⟩

theorem Grammar.Part.ItemsTypeset.noItem (before : Breaks front) (legible : closing.Legible)
    (closes : closing.kind = .symbol bracket.close) :
    part.ItemsTypeset bracket (front ++ [closing]) ([], false) := by
  refine ⟨fun value member => by simp at member, fun frame frames seam holds listed taken => ?_⟩
  rw [List.map_append] at taken ⊢
  obtain rfl := eq_nil_of_breaks before holds taken
  refine .inl ⟨?_, fun _ => ?_, by simp⟩
  · cases part <;> exact congrArg (fun last => [last]) (legible.item_symbol closes)
  · obtain ⟨_, next, -⟩ := Compositor.exists_of_run_cons taken
    rw [legible.item_kind, closes] at next
    cases seam with
    | start => exact .inl rfl
    | comma chain =>
      have closed : Compositor.next ⟨frame :: frames, .comma chain⟩ (.symbol bracket.close) =
          if frame == .group 1 then some ⟨frames, frame.closed⟩ else none := by
        cases bracket <;> rfl
      rw [closed] at next
      cases only : frame == .group 1 with
      | true => exact .inr (beq_iff_eq.mp only)
      | false => simp [only] at next
    | _ => contradiction

theorem Grammar.Part.ItemsTypeset.lastItem {value : part.Tree Unit} (before : Breaks front)
    (inner : part.Typeset words value) (after : Breaks back) (legible : closing.Legible)
    (closes : closing.kind = .symbol bracket.close) :
    part.ItemsTypeset bracket (front ++ (words ++ (back ++ [closing]))) ([value], false) := by
  refine ⟨fun other member => ?_, fun frame frames seam holds listed taken => ?_⟩
  · obtain rfl := List.mem_singleton.mp member
    exact ⟨words, inner⟩
  · simp only [List.map_append, List.map_cons, List.map_nil] at taken ⊢
    obtain ⟨same, -⟩ := inner.taken before after holds listed taken
    refine .inl ⟨?_, by simp, by simp⟩
    rw [same, legible.item_symbol closes, bare_append]
    cases part <;> rfl

theorem Grammar.Part.ItemsTypeset.moreItems {value : part.Tree Unit}
    {values : List (part.Tree Unit)} {divided : Bool} (before : Breaks front)
    (inner : part.Typeset words value) (after : Breaks back) (legible : comma.Legible)
    (isComma : comma.kind = .symbol .comma)
    (others : part.ItemsTypeset bracket rest (values, divided)) :
    part.ItemsTypeset bracket (front ++ (words ++ (back ++ comma :: rest)))
      (value :: values, true) := by
  refine ⟨fun other member => ?_, fun frame frames seam holds listed taken => ?_⟩
  · rcases List.mem_cons.mp member with rfl | member
    · exact ⟨words, inner⟩
    · exact others.each other member
  · simp only [List.map_append, List.map_cons] at taken ⊢
    obtain ⟨same, last, settled, taken⟩ := inner.taken before after holds listed taken
    obtain ⟨_, next, taken⟩ := Compositor.exists_of_run_cons taken
    have step : Compositor.next ⟨frame :: frames, last⟩ (.symbol .comma) =
        some ⟨frame.count 1 :: frames, last.afterComma⟩ := rfl
    rw [legible.item_kind, isComma, step, Option.some.injEq] at next
    rw [← next] at taken
    have again : last.afterComma.isListed = true ∧ last.afterComma ≠ .start := by
      cases last <;> exact ⟨rfl, by simp [Seam.afterComma]⟩
    rw [same, legible.item_symbol isComma]
    rcases others.tidy (frame.count 1) frames last.afterComma
      ((Frame.holds_count 1 frame part).trans holds) again.1 taken with
      ⟨tail, trailing, several⟩ | ⟨-, -, -, isGroup⟩
    · rw [tail]
      cases values with
      | nil =>
        -- The comma at the end is the first of its parentheses, so no other divides them.
        have isOne := (trailing rfl).resolve_left again.2
        refine .inr ⟨?_, rfl, rfl, ?_⟩
        · simp [Part.layouts_eq_map, commas, Symbol.spelling]
        · cases frame <;> simp_all [Frame.count]
      | cons second values =>
        refine .inl ⟨?_, by simp, by simp⟩
        simp [Part.layouts_eq_map, commas, Symbol.spelling]
    · cases frame <;> simp [Frame.count] at isGroup

theorem Grammar.Part.ItemsTypeset.isElement {frame : Frame} {list : List (part.Tree Unit) × Bool}
    (typeset : part.ItemsTypeset bracket words list) (holds : frame.holds part = true)
    (frames : List Frame) :
    ∀ layout ∈ part.layouts (depth frames) list.1, IsElement frame frames layout := by
  rw [Part.layouts_eq_map]
  intro layout member
  obtain ⟨value, inside, rfl⟩ := List.mem_map.mp member
  obtain ⟨row, element⟩ := typeset.each value inside
  refine ⟨element.leads _, fun commas seam listed => ?_⟩
  obtain ⟨last, settled, enters⟩ := element.enters (frame.count commas) frames seam
    ((Frame.holds_count commas frame part).trans holds) listed
  exact ⟨last, settled, enters.self⟩

theorem Grammar.Part.ItemsTypeset.sets {list : List (part.Tree Unit) × Bool}
    (typeset : part.ItemsTypeset bracket words list) (frame : Frame)
    (holds : frame.holds part = true) (frames : List Frame)
    (plain : frame = .group 0 → list.2 = true → list.1.length ≠ 1) :
    Sets ⟨frame :: frames, .start⟩ (words.map item)
      (commas (part.layouts (depth frames) list.1) ++ [.word bracket.close.spelling])
      ⟨frames, frame.closed⟩ := by
  refine ⟨(sets_list holds (typeset.isElement holds frames)).lays, fun taken => ?_⟩
  rcases typeset.tidy frame frames .start holds rfl taken with
    ⟨same, -⟩ | ⟨-, divided, only, isGroup⟩
  · exact same
  · exact absurd only (plain isGroup divided)

theorem Grammar.Part.ItemsTypeset.setsOnly {value : Expr Unit}
    (typeset : Part.expression.ItemsTypeset .round words ([value], true)) (frames : List Frame) :
    Sets ⟨.group 0 :: frames, .start⟩ (words.map item)
      (value.layout (depth frames) ++ [.word ",", .word ")"]) ⟨frames, .grouped⟩ := by
  have holds : (Frame.group 0).holds .expression = true := rfl
  have element := typeset.isElement holds frames (value.layout (depth frames))
    (by simp [Part.layouts, Expr.layouts])
  refine ⟨(sets_onlyElement element).lays, fun taken => ?_⟩
  rcases typeset.tidy (.group 0) frames .start rfl rfl taken with ⟨-, -, several⟩ | ⟨same, -⟩
  · exact absurd (several rfl) (Nat.not_succ_le_self 1)
  · exact same

end Items

/-! ## Rules of lines -/

section Lines

variable {words head : List Lexeme} {lineEnd : Lexeme} {body : List (Stmt Unit)}

theorem Stmt.LinesTypeset.noLine : Stmt.LinesTypeset [] [] where
  each := by simp
  block _ _ _ _ _ _ notLine behind := .feed (if_neg notLine) behind
  page _ := .nil

/-- A blank line is refused in a block, and may stand on a page. -/
theorem Stmt.LinesTypeset.emptyLine (isBreak : lineEnd.kind = .newline)
    (rest : Stmt.LinesTypeset words body) :
    Stmt.LinesTypeset (lineEnd :: words) body := by
  have isLine : lineEnd.item = .line 0 := by simp [item, isBreak]
  refine ⟨rest.each, fun frames isOpen seam items back after notLine behind => ?_, fun taken => ?_⟩
  · refine ⟨(rest.block frames isOpen seam items back after notLine behind).lays, fun taken => ?_⟩
    obtain ⟨_, next, taken⟩ := Compositor.exists_of_run_cons taken
    obtain ⟨_, refused, -⟩ := Compositor.exists_of_run_cons taken
    have step : Compositor.next ⟨.block isOpen :: frames, seam⟩ .newline =
        some ⟨.block true :: frames, .line⟩ := if_neg notLine
    rw [Item.kind, step, Option.some.injEq] at next
    rw [← next, isLine] at refused
    contradiction
  · rw [List.map_cons, isLine] at taken ⊢
    obtain ⟨_, next, taken⟩ := Compositor.exists_of_run_cons taken
    obtain rfl : Compositor.mk [.page] .line = _ := Option.some.inj next
    exact .blank (rest.page taken)

theorem Stmt.LinesTypeset.line {first : Stmt Unit} (inner : Stmt.Typeset head first)
    (isBreak : lineEnd.kind = .newline) (rest : Stmt.LinesTypeset words body) :
    Stmt.LinesTypeset (head ++ lineEnd :: words) (first :: body) := by
  have isLine : lineEnd.item = .line 0 := by simp [item, isBreak]
  refine ⟨List.forall_mem_cons.mpr ⟨⟨head, inner⟩, rest.each⟩,
    fun frames isOpen seam items back after notLine behind => ?_, fun taken => ?_⟩
  · have tail := rest.block frames true first.seam items back after first.seam_ne_line behind
    have line := (inner.enters (.block true :: frames) .line rfl fun _ => rfl).line (inner.leads _)
    have layout : lines (depth frames + 1) (Stmt.layouts (depth frames + 1) (first :: body)) ++
        .line (depth frames) :: back = .line (depth frames + 1) ::
          (first.layout (depth frames + 1) ++ (lines (depth frames + 1)
            (Stmt.layouts (depth frames + 1) body) ++ .line (depth frames) :: back)) := by
      simp [lines, Stmt.layouts]
    simp only [List.map_append, List.map_cons, isLine, List.append_assoc, List.cons_append, layout]
    exact .feed (if_neg notLine) (line.append tail)
  · rw [List.map_append, List.map_cons, isLine] at taken ⊢
    obtain ⟨same, taken⟩ := (inner.enters [.page] .line rfl fun _ => rfl).taken taken
    obtain ⟨_, next, taken⟩ := Compositor.exists_of_run_cons taken
    obtain rfl : Compositor.mk [.page] .line = _ := Option.some.inj next
    rw [same]
    exact .row inner (rest.page taken)

/-- A word that ends the lines of a block stands as far out as the block begins. -/
theorem Layout.Copies.outdent {frames : List Frame} {middle after : Compositor} {items : List Item}
    {back : Layout} (word : Keyword) (outdents : Kind.outdents (.keyword word) = true)
    (step : Compositor.next ⟨.block true :: frames, .line⟩ (.keyword word) = some middle)
    (rest : Sets middle items back after) :
    Copies ⟨.block true :: frames, .line⟩ (.word word.spelling :: items)
      (.word word.spelling :: back) (.line (depth frames) :: .word word.spelling :: back)
      after := by
  have spelt := Spelt.keyword word
  have whole : Copies ⟨.block true :: frames, .line⟩ (.word word.spelling :: items)
      (.word word.spelling :: back) _ after :=
    .item rfl (by rw [Item.kind, spelt.isKind, step]) rest
  have gap : Compositor.gap ⟨.block true :: frames, .line⟩ (.keyword word) false =
      [.line (depth frames)] := by
    simp [Compositor.gap, outdents, depth, Kind.clings, Kind.opensBracket]
  rwa [Item.kind, spelt.isKind, spelt.noDigit, gap] at whole

/-- The lines of a block are set, from the break before them through the `end` behind them. -/
structure Stmt.BodyTypeset (words : List Lexeme) (body : List (Stmt Unit)) : Prop where
  sets : ∀ {frames isOpen seam}, seam ≠ .line →
    Sets ⟨.block isOpen :: frames, seam⟩ (words.map item)
      (lines (depth frames + 1) (Stmt.layouts (depth frames + 1) body) ++
        [.line (depth frames), .word "end"]) ⟨frames, .operand⟩

theorem Stmt.BodyTypeset.ofLines {closing : Lexeme} (isBreak : lineEnd.kind = .newline)
    (typeset : (∀ word ∈ words, word.Legible) → Stmt.LinesTypeset words body)
    (closes : closing.kind = .keyword .kwEnd)
    (legible : lineEnd.Legible ∧ (∀ word ∈ words, word.Legible) ∧ closing.Legible ∧
      ∀ word ∈ [], Lexeme.Legible word) :
    Stmt.BodyTypeset (lineEnd :: (words ++ [closing])) body := by
  refine ⟨fun {frames isOpen seam} notLine => ?_⟩
  have isLine : lineEnd.item = .line 0 := by simp [item, isBreak]
  rw [List.map_cons, List.map_append, List.map_singleton, isLine,
    legible.2.2.1.item_keyword closes]
  exact (typeset legible.2.1).block frames isOpen seam _ _ _ notLine (.outdent .kwEnd rfl rfl .nil)

end Lines

end Parlance
