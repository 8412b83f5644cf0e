import Parlance.Proofs.Layout.Compositor

/-!
Contract: the blocks that are open at a place of a text.

A block is opened by a word and closed by an `end`. Whether the word opens one is known only further
on: a condition may go on with `then`, and a method with the operator before its value, and then no
`end` belongs to them. The lines of a block begin at the line break behind its head. Owns: the blocks
that are open behind a row of words (`Nesting`), found from the kinds of the words alone, and that a
compositor has the same blocks open. Does not own: where lines are indented.
-/

namespace Parlance

/-! ## Open blocks -/

/-- A part of a text that has begun and is not over. -/
inductive Nesting.Part where
  /-- Brackets, and whether they are those of a declaration. -/
  | bracket (declares : Bool)
  /-- A word that may open a block, and what stands behind it on its line. -/
  | head
  /-- The lines of a block. -/
  | body
  /-- All lines of the text. -/
  | page
deriving DecidableEq, Repr

/-- What was read last, as far as it tells the operator before the value of a method from one of an
assignment. -/
inductive Nesting.Mark where
  /-- A word that the name of a declaration stands behind. -/
  | title
  /-- The name of a declaration. -/
  | name
  /-- The closing bracket of a declaration. -/
  | signature
  | other
deriving DecidableEq, Repr

/-- What is open, innermost first, and what was read last. -/
structure Nesting where
  parts : List Nesting.Part
  last : Nesting.Mark
deriving DecidableEq, Repr

namespace Nesting

def start : Nesting :=
  ⟨[.page], .other⟩

/-- Behind the line break that ends a head, its block has begun. -/
def begun : List Part → List Part
  | .head :: parts => .body :: parts
  | parts => parts

def next (nesting : Nesting) : Kind → Nesting
  | .name =>
    ⟨nesting.parts, if nesting.last = .title ∨ nesting.last = .name then .name else .other⟩
  | .symbol .doubleColon =>
    ⟨nesting.parts, if nesting.last = .name then .title else .other⟩
  | .symbol .lparen => ⟨.bracket (nesting.last = .name) :: nesting.parts, .other⟩
  | .symbol .lbracket => ⟨.bracket false :: nesting.parts, .other⟩
  | .symbol .rparen | .symbol .rbracket =>
    ⟨nesting.parts.tail,
      if nesting.parts.head? = some (.bracket true) then .signature else .other⟩
  | .symbol .assign | .symbol .plusAssign | .symbol .minusAssign | .symbol .starAssign
  | .symbol .slashAssign =>
    ⟨if nesting.last = .signature then nesting.parts.tail else nesting.parts, .other⟩
  | .keyword .kwFn | .keyword .kwIf | .keyword .kwFor | .keyword .kwWhile =>
    ⟨.head :: nesting.parts, .other⟩
  | .keyword .kwClass | .keyword .kwDef => ⟨.head :: nesting.parts, .title⟩
  | .keyword .kwUse => ⟨nesting.parts, .title⟩
  | .keyword .kwThen | .keyword .kwEnd => ⟨nesting.parts.tail, .other⟩
  | .newline => ⟨begun nesting.parts, .other⟩
  | _ => ⟨nesting.parts, .other⟩

def behind (kinds : List Kind) : Nesting :=
  kinds.foldl next start

def blocks (nesting : Nesting) : Nat :=
  nesting.parts.count .body

end Nesting

/-! ## The blocks of a compositor -/

namespace Layout

/-- What a frame is part of, whatever commas it counts. -/
def Frame.part : Frame → Nesting.Part
  | .group _ | .plain => .bracket false
  | .params => .bracket true
  | .block false => .head
  | .block true => .body
  | .page => .page

/-- What a seam tells of a declaration. -/
def Seam.mark : Seam → Nesting.Mark
  | .title | .joint => .title
  | .path => .name
  | .signature => .signature
  | _ => .other

def Compositor.nesting (desk : Compositor) : Nesting :=
  ⟨desk.frames.map Frame.part, desk.seam.mark⟩

section Steps

variable {desk after : Compositor} {kind : Kind}

theorem Frame.part_count (commas : Nat) (frame : Frame) :
    (frame.count commas).part = frame.part := by
  cases frame <;> rfl

theorem Frame.part_discount (commas : Nat) (frame : Frame) :
    (frame.discount commas).part = frame.part := by
  cases frame <;> rfl

theorem parts_tally (commas : Nat) (frames : List Frame) :
    (tally commas frames).map Frame.part = frames.map Frame.part := by
  cases frames with
  | nil => rfl
  | cons frame frames => exact congrArg (· :: frames.map Frame.part) (frame.part_count commas)

theorem parts_untally (commas : Nat) (frames : List Frame) :
    (untally commas frames).map Frame.part = frames.map Frame.part := by
  cases frames with
  | nil => rfl
  | cons frame frames => exact congrArg (· :: frames.map Frame.part) (frame.part_discount commas)

theorem nesting_of_closed (step : desk.closed = some after) :
    after.nesting = ⟨desk.nesting.parts.tail,
      if desk.nesting.parts.head? = some (.bracket true) then .signature else .other⟩ := by
  obtain ⟨frames, seam⟩ := desk
  cases frames with
  | nil => cases step
  | cons frame frames =>
    rw [Compositor.closed] at step
    dsimp only at step
    split at step
    · cases step
      cases frame with
      | block isOpen => cases isOpen <;> rfl
      | group | params | plain | page => rfl
    · cases step

theorem nesting_of_assigned (step : desk.assigned = some after) :
    after.nesting =
      ⟨if desk.nesting.last = .signature then desk.nesting.parts.tail else desk.nesting.parts,
        .other⟩ := by
  obtain ⟨frames, seam⟩ := desk
  have kept : ∀ commas, Compositor.nesting ⟨untally commas frames, .apart⟩ =
      ⟨frames.map Frame.part, .other⟩ := by
    intro commas
    exact congrArg (Nesting.mk · .other) (parts_untally commas frames)
  cases seam with
  | grouped => cases step
  | signature =>
    cases step
    exact congrArg (Nesting.mk · .other) List.map_tail
  | start | line | sign | apart | comma | name | operand | title | path | joint =>
    cases step
    exact kept _

theorem nesting_of_fed (step : desk.fed = some after) :
    after.nesting = ⟨Nesting.begun desk.nesting.parts, .other⟩ := by
  obtain ⟨frames, seam⟩ := desk
  cases frames with
  | nil => cases step
  | cons frame frames =>
    cases frame with
    | group | params | plain => cases step
    | page =>
      cases step
      rfl
    | block isOpen =>
      rw [Compositor.fed] at step
      dsimp only at step
      split at step
      · cases step
      · cases step
        cases isOpen <;> rfl

/-- Behind each word, the compositor has open what is open. -/
theorem nesting_of_next (step : desk.next kind = some after) :
    after.nesting = desk.nesting.next kind := by
  obtain ⟨frames, seam⟩ := desk
  cases kind with
  | name =>
    cases step
    cases seam <;> rfl
  | number | string | boolean | nil =>
    cases step
    rfl
  | newline => exact nesting_of_fed step
  | endOfInput => cases step
  | keyword word =>
    cases word with
    | kwClass | kwDef =>
      rw [Compositor.next] at step
      split at step
      · cases step
        rfl
      · cases step
    | kwThen | kwEnd =>
      cases step
      exact congrArg (Nesting.mk · .other) List.map_tail
    | kwIf | kwElse | kwFor | kwIn | kwWhile | kwAnd | kwOr | kwNot | kwBreak | kwContinue
    | kwReturn | kwDo | kwFn | kwUse =>
      cases step
      rfl
  | symbol mark =>
    cases mark with
    | lparen =>
      cases step
      cases seam <;> rfl
    | rparen | rbracket => exact nesting_of_closed step
    | comma =>
      cases step
      have noMark : seam.afterComma.mark = .other := by cases seam <;> rfl
      exact congrArg₂ Nesting.mk (parts_tally 1 frames) noMark
    | dot =>
      rw [Compositor.next] at step
      split at step
      · cases step
      · cases step
        rfl
    | doubleColon | minus =>
      cases step
      cases seam <;> rfl
    | assign | plusAssign | minusAssign | starAssign | slashAssign =>
      exact nesting_of_assigned step
    | lbracket | lbrace | rbrace | colon | semicolon | arrow | plus | star | slash | percent
    | equal | notEqual | greater | greaterEqual | less | lessEqual =>
      cases step
      rfl

theorem nesting_of_run {items : List Item} {out : Layout}
    (run : desk.run items = some (out, after)) :
    after.nesting = (items.map Item.kind).foldl Nesting.next desk.nesting := by
  induction items generalizing desk out with
  | nil =>
    cases run
    rfl
  | cons item items ih =>
    rw [Compositor.run] at run
    cases step : desk.next item.kind with
    | none => simp [step] at run
    | some middle =>
      cases rest : middle.run items with
      | none => simp [step, rest] at run
      | some reply =>
        obtain ⟨more, last⟩ := reply
        obtain rfl : last = after := by simpa [step, rest] using congrArg (·.map Prod.snd) run
        rw [ih rest, nesting_of_next step]
        rfl

theorem blocks_nesting (desk : Compositor) : desk.nesting.blocks = depth desk.frames := by
  obtain ⟨frames, seam⟩ := desk
  induction frames with
  | nil => rfl
  | cons frame frames ih =>
    have others : (frames.map Frame.part).count .body = depth frames := ih
    cases frame with
    | block isOpen =>
      cases isOpen <;> simp [Nesting.blocks, Compositor.nesting, Frame.part, depth, others]
    | group | params | plain | page =>
      simp [Nesting.blocks, Compositor.nesting, Frame.part, depth, others]

end Steps

end Layout

end Parlance
