import Parlance.Proofs.Grammar.Derivation

/-!
Contract: rows of words that differ only at the margins of their lists.

In the brackets of a call, a declaration, a grouping, a tuple, an array or a dictionary, line breaks
may stand behind the opening bracket, around each comma and before the closing bracket, and behind
the last item there may be a comma, unless that would make a tuple of a grouping. The brackets of an
index are no list. Owns: what is open at a place of a row (`Bracketing`), which is found from the
kinds of the words alone, rows with line breaks and commas added (`Loosened`), and what can be added
between the words of a phrase and at the margins of a list. Does not own: that such rows form the
same trees.
-/

namespace Parlance

open Lexeme

/-! ## Open lists -/

/-- A part of a row that has begun and is not over. -/
inductive Bracketing.Frame where
  /-- The brackets of a list: whether a comma behind its last item changes nothing, and whether an
  item has begun since the opening bracket or the last comma. -/
  | list (loose : Bool) (filled : Bool)
  /-- The brackets of an index. -/
  | index
  /-- A word up to the `then` or the `end` that belongs to it. -/
  | clause
  /-- A `def` up to the end of its line, or up to the operator before its value. -/
  | method
deriving DecidableEq, Repr

/-- What is open, innermost first, and whether an operand ends here. -/
structure Bracketing where
  frames : List Bracketing.Frame
  ended : Bool
deriving DecidableEq, Repr

namespace Bracketing

def start : Bracketing :=
  ⟨[], false⟩

def fill : List Frame → List Frame
  | .list loose _ :: frames => .list loose true :: frames
  | frames => frames

/-- What is open behind a comma. A list with a comma is no grouping. -/
def divide : List Frame → List Frame
  | .list _ _ :: frames => .list true false :: frames
  | frames => frames

/-- What is open behind the operator of an assignment, or the one before the value of a method. -/
def assign : List Frame → List Frame
  | .method :: frames => frames
  | frames => fill frames

def feed : List Frame → List Frame
  | .method :: frames => .clause :: frames
  | frames => frames

/-- What is open behind a word in the midst of an item. A bracket behind an operand belongs to a
call, a declaration or an index, and another one to a grouping, a tuple, an array or a dictionary. -/
def enter (place : Bracketing) : Kind → Bracketing
  | .symbol .lparen => ⟨.list place.ended false :: place.frames, false⟩
  | .symbol .lbracket => ⟨(if place.ended then .index else .list true false) :: place.frames, false⟩
  | .keyword .kwFn | .keyword .kwIf | .keyword .kwFor | .keyword .kwWhile | .keyword .kwClass =>
    ⟨.clause :: place.frames, false⟩
  | .keyword .kwDef => ⟨.method :: place.frames, false⟩
  | kind => ⟨place.frames, kind.endsOperand⟩

def next (place : Bracketing) : Kind → Bracketing
  | .symbol .rparen | .symbol .rbracket => ⟨place.frames.tail, true⟩
  | .symbol .comma => ⟨divide place.frames, false⟩
  | .symbol .colon => ⟨place.frames, false⟩
  | .symbol .assign => ⟨assign place.frames, false⟩
  | .newline => ⟨feed place.frames, false⟩
  | .keyword .kwThen => ⟨place.frames.tail, false⟩
  | .keyword .kwEnd => ⟨place.frames.tail, true⟩
  | kind => enter ⟨fill place.frames, place.ended⟩ kind

end Bracketing

/-! ## Line breaks and commas that are added -/

def Kind.closesList : Kind → Bool
  | .symbol .rparen | .symbol .rbracket => true
  | _ => false

/-- The kinds of words that end an item of a list. -/
def Kind.endsItem (kind : Kind) : Bool :=
  kind == .symbol .comma || kind.closesList

/-- The kind of the first word that is no line break. -/
def Lexeme.upcoming (words : List Lexeme) : Option Kind :=
  (words.find? (·.kind != .newline)).map Lexeme.kind

namespace Bracketing

/-- Whether a line break may be added before the words: behind an opening bracket or a comma of a
list, or before a comma or the closing bracket. -/
def takesBreak (place : Bracketing) (words : List Lexeme) : Bool :=
  match place.frames with
  | .list _ filled :: _ => !filled || (upcoming words).any Kind.endsItem
  | _ => false

/-- Whether a comma may be added before the words: behind the last item of a list that allows it. -/
def takesComma (place : Bracketing) (words : List Lexeme) : Bool :=
  match place.frames with
  | .list true true :: _ => (upcoming words).any Kind.closesList
  | _ => false

end Bracketing

/-- The second row is the first with line breaks and commas added at the margins of lists. -/
inductive Loosened : Bracketing → List Lexeme → List Lexeme → Prop where
  | done {place : Bracketing} :
      Loosened place [] []
  | word {place : Bracketing} {word : Lexeme} {words others : List Lexeme}
      (rest : Loosened (place.next word.kind) words others) :
      Loosened place (word :: words) (word :: others)
  | lineBreak {place : Bracketing} {added : Lexeme} {words others : List Lexeme}
      (isBreak : added.kind = .newline) (takes : place.takesBreak words = true)
      (rest : Loosened place words others) :
      Loosened place words (added :: others)
  | comma {place : Bracketing} {added : Lexeme} {words others : List Lexeme}
      (isComma : added.kind = .symbol .comma) (takes : place.takesComma words = true)
      (rest : Loosened (place.next (.symbol .comma)) words others) :
      Loosened place words (added :: others)

/-! ## Where nothing can be added -/

namespace Bracketing

/-- Whether the innermost list, if it is what is innermost, is in the midst of an item. -/
def settled : List Frame → Bool
  | .list _ filled :: _ => filled
  | .method :: _ => false
  | _ => true

/-- Whether a statement may stand here, with commas that divide no list. -/
def onLine : List Frame → Bool
  | .list _ _ :: _ | .method :: _ => false
  | _ => true

/-- Whether nothing can be added before a word of the given kind. -/
def tight (place : Bracketing) (kind : Kind) : Bool :=
  match place.frames with
  | .list _ filled :: _ => filled && kind != .newline && !kind.endsItem
  | _ => true

section Frames

variable {frames : List Frame}

theorem settled_of_onLine (onLine : onLine frames = true) : settled frames = true := by
  cases frames with
  | nil => rfl
  | cons frame frames => cases frame <;> first | contradiction | rfl

theorem fill_of_settled (settled : settled frames = true) : fill frames = frames := by
  cases frames with
  | nil => rfl
  | cons frame frames =>
    cases frame with
    | list loose filled =>
      have isFilled : filled = true := settled
      rw [isFilled]
      rfl
    | index | clause | method => rfl

theorem assign_of_settled (settled : settled frames = true) : assign frames = frames := by
  cases frames with
  | nil => rfl
  | cons frame frames =>
    cases frame with
    | list | index | clause => exact fill_of_settled settled
    | method => contradiction

theorem divide_of_onLine (onLine : onLine frames = true) : divide frames = frames := by
  cases frames with
  | nil => rfl
  | cons frame frames => cases frame <;> first | contradiction | rfl

theorem feed_of_onLine (onLine : onLine frames = true) : feed frames = frames := by
  cases frames with
  | nil => rfl
  | cons frame frames => cases frame <;> first | contradiction | rfl

theorem tight_of_settled {ended : Bool} {kind : Kind} (settled : settled frames = true)
    (plain : (kind != .newline && !kind.endsItem) = true) :
    tight ⟨frames, ended⟩ kind = true := by
  cases frames with
  | nil => rfl
  | cons frame frames =>
    cases frame with
    | list loose filled =>
      have isFilled : filled = true := settled
      rw [isFilled]
      exact plain
    | index | clause | method => rfl

theorem tight_of_onLine {ended : Bool} (onLine : onLine frames = true) (kind : Kind) :
    tight ⟨frames, ended⟩ kind = true := by
  cases frames with
  | nil => rfl
  | cons frame frames => cases frame <;> first | contradiction | rfl

end Frames

end Bracketing

section Keeping

variable {place after middle : Bracketing} {word : Lexeme} {words others : List Lexeme}

theorem Lexeme.upcoming_cons (notBreak : word.kind ≠ .newline) :
    upcoming (word :: words) = some word.kind := by
  simp [upcoming, notBreak]

theorem Lexeme.upcoming_of_breaks {front : List Lexeme} (breaks : Breaks front)
    (notBreak : word.kind ≠ .newline) :
    upcoming (front ++ word :: words) = some word.kind := by
  induction front with
  | nil => exact upcoming_cons notBreak
  | cons first front ih =>
    have isBreak : first.kind = .newline := breaks first (by simp)
    have others : Breaks front := fun word member => breaks word (List.mem_cons_of_mem _ member)
    simpa [upcoming, isBreak] using ih others

/-- Where nothing can be added, the rows go on with the same word. -/
theorem Loosened.keep (loosened : Loosened place (word :: words) others)
    (tight : place.tight word.kind = true) :
    ∃ behind, others = word :: behind ∧ Loosened (place.next word.kind) words behind := by
  cases loosened with
  | word rest => exact ⟨_, rfl, rest⟩
  | lineBreak isBreak takes rest =>
    unfold Bracketing.takesBreak at takes
    unfold Bracketing.tight at tight
    split at takes
    · rename_i same
      simp only [same, Bool.and_eq_true, bne_iff_ne, Bool.not_eq_true'] at tight
      simp [upcoming_cons tight.1.2, tight.1.1, tight.2] at takes
    · contradiction
  | comma isComma takes rest =>
    unfold Bracketing.takesComma at takes
    unfold Bracketing.tight at tight
    split at takes
    · rename_i same
      simp only [same, Bool.and_eq_true, bne_iff_ne, Bool.not_eq_true', Kind.endsItem,
        Bool.or_eq_false_iff] at tight
      simp [upcoming_cons tight.1.2, tight.2.2] at takes
    · contradiction

/-- Behind the words of the first row stand what becomes of them, of which something is known, and
then what becomes of the rest. -/
def Passes (place : Bracketing) (words : List Lexeme) (after : Bracketing)
    (good : List Lexeme → Prop) : Prop :=
  ∀ rest others, Loosened place (words ++ rest) others →
    ∃ inner tail, others = inner ++ tail ∧ good inner ∧ Loosened after rest tail

theorem Passes.nil {good : List Lexeme → Prop} (holds : good []) : Passes place [] place good :=
  fun _ others loosened => ⟨[], others, rfl, holds, loosened⟩

theorem Passes.imp {good better : List Lexeme → Prop} (passes : Passes place words after good)
    (implies : ∀ inner, good inner → better inner) :
    Passes place words after better := by
  intro rest others loosened
  obtain ⟨inner, tail, same, isGood, behind⟩ := passes rest others loosened
  exact ⟨inner, tail, same, implies inner isGood, behind⟩

theorem Passes.append {front back : List Lexeme} {early good : List Lexeme → Prop}
    (first : Passes place front middle early)
    (second : ∀ start, early start → Passes middle back after fun rest => good (start ++ rest)) :
    Passes place (front ++ back) after good := by
  intro rest others loosened
  rw [List.append_assoc] at loosened
  obtain ⟨start, tail, rfl, isEarly, behind⟩ := first _ others loosened
  obtain ⟨inner, tail, rfl, isGood, behind⟩ := second start isEarly rest tail behind
  exact ⟨start ++ inner, tail, (List.append_assoc _ _ _).symm, isGood, behind⟩

theorem Passes.cons {kind : Kind} {good : List Lexeme → Prop} (isKind : word.kind = kind)
    (tight : place.tight kind = true)
    (rest : Passes (place.next kind) words after fun behind => good (word :: behind)) :
    Passes place (word :: words) after good := by
  subst isKind
  intro more others loosened
  obtain ⟨behind, rfl, kept⟩ := loosened.keep tight
  obtain ⟨inner, tail, rfl, isGood, further⟩ := rest more behind kept
  exact ⟨word :: inner, tail, rfl, isGood, further⟩

end Keeping

/-! ## The margins of a list -/

section Margins

open Bracketing

variable {frames : List Frame} {loose ended : Bool} {word : Lexeme}
variable {front rest others : List Lexeme}

/-- What stands in a list behind the line breaks that are there and those that are added: the next
word, or a comma that is added before the rest of them. -/
theorem Loosened.margin {filled : Bool}
    (loosened : Loosened ⟨.list loose filled :: frames, ended⟩ (front ++ word :: rest) others)
    (breaks : Breaks front) :
    ∃ added behind last, others = added ++ behind ∧ Breaks added ∧ (ended = false → last = false) ∧
      ((∃ tail, behind = word :: tail ∧
          Loosened (next ⟨.list loose filled :: frames, last⟩ word.kind) rest tail) ∨
        ∃ comma tail more, behind = comma :: tail ∧ comma.kind = .symbol .comma ∧ Breaks more ∧
          takesComma ⟨.list loose filled :: frames, last⟩ (more ++ word :: rest) = true ∧
          Loosened ⟨.list true false :: frames, false⟩ (more ++ word :: rest) tail) := by
  generalize isPlace : (⟨.list loose filled :: frames, ended⟩ : Bracketing) = place at loosened
  generalize isRow : front ++ word :: rest = row at loosened
  induction loosened generalizing front ended with
  | done => simp at isRow
  | word behind ih =>
    subst isPlace
    cases front with
    | nil =>
      obtain ⟨rfl, rfl⟩ := List.cons.inj isRow
      exact ⟨[], _, ended, rfl, .nil, id, .inl ⟨_, rfl, behind⟩⟩
    | cons first front =>
      obtain ⟨rfl, isRest⟩ := List.cons.inj isRow
      obtain ⟨isBreak, breaksBehind⟩ := List.forall_mem_cons.mp breaks
      rw [isBreak] at ih
      obtain ⟨added, tail, last, rfl, areBreaks, isLast, goesOn⟩ :=
        ih breaksBehind rfl isRest
      exact ⟨first :: added, tail, last, rfl, List.forall_mem_cons.mpr ⟨isBreak, areBreaks⟩,
        fun _ => isLast rfl, goesOn⟩
  | lineBreak isBreak takes behind ih =>
    obtain ⟨added, tail, last, rfl, areBreaks, goesOn⟩ := ih breaks isPlace isRow
    exact ⟨_ :: added, tail, last, rfl, List.forall_mem_cons.mpr ⟨isBreak, areBreaks⟩, goesOn⟩
  | comma isComma takes behind =>
    subst isPlace isRow
    exact ⟨[], _, ended, rfl, .nil, id, .inr ⟨_, _, front, rfl, isComma, breaks, takes, behind⟩⟩

/-- What stands behind an opening bracket or a comma, up to the next word. -/
theorem Loosened.behind_opening
    (loosened : Loosened ⟨.list loose false :: frames, false⟩ (front ++ word :: rest) others)
    (breaks : Breaks front) :
    ∃ added tail, others = added ++ word :: tail ∧ Breaks added ∧
      Loosened (next ⟨.list loose false :: frames, false⟩ word.kind) rest tail := by
  obtain ⟨added, behind, last, rfl, areBreaks, isLast, goesOn⟩ := loosened.margin breaks
  obtain rfl := isLast rfl
  rcases goesOn with ⟨tail, rfl, further⟩ | ⟨comma, tail, more, -, -, -, takes, -⟩
  · exact ⟨added, tail, rfl, areBreaks, further⟩
  · -- No item has begun.
    cases loose <;> cases takes

theorem Loosened.before_comma
    (loosened : Loosened ⟨.list loose true :: frames, ended⟩ (front ++ word :: rest) others)
    (breaks : Breaks front) (isComma : word.kind = .symbol .comma) :
    ∃ added tail, others = added ++ word :: tail ∧ Breaks added ∧
      Loosened ⟨.list true false :: frames, false⟩ rest tail := by
  obtain ⟨added, behind, last, rfl, areBreaks, -, goesOn⟩ := loosened.margin breaks
  rcases goesOn with ⟨tail, rfl, further⟩ | ⟨comma, tail, more, -, -, breaksMore, takes, -⟩
  · rw [isComma] at further
    exact ⟨added, tail, rfl, areBreaks, further⟩
  · -- A comma is added before a closing bracket only.
    have isUpcoming := @upcoming_of_breaks word rest more breaksMore (by simp [isComma])
    cases loose
    · cases takes
    · simp [takesComma, isUpcoming, isComma, Kind.closesList] at takes

theorem Loosened.before_closing
    (loosened : Loosened ⟨.list loose true :: frames, ended⟩ (front ++ word :: rest) others)
    (breaks : Breaks front) (closes : word.kind.closesList = true) :
    ∃ added tail, Breaks added ∧ Loosened ⟨frames, true⟩ rest tail ∧
      (others = added ++ word :: tail ∨
        loose = true ∧ ∃ comma more, comma.kind = .symbol .comma ∧ Breaks more ∧
          others = added ++ comma :: (more ++ word :: tail)) := by
  have closed : ∀ place : Bracketing, place.next word.kind = ⟨place.frames.tail, true⟩ := by
    intro place
    unfold Kind.closesList at closes
    split at closes <;> rename_i isKind
    · rw [isKind]
      rfl
    · rw [isKind]
      rfl
    · contradiction
  obtain ⟨added, behind, last, rfl, areBreaks, -, goesOn⟩ := loosened.margin breaks
  rcases goesOn with ⟨tail, rfl, further⟩ |
    ⟨comma, tail, more, rfl, isComma, breaksMore, takes, rest⟩
  · rw [closed] at further
    exact ⟨added, tail, areBreaks, further, .inl rfl⟩
  · have isLoose : loose = true := by
      cases loose
      · cases takes
      · rfl
    obtain ⟨between, tail, rfl, areBetween, further⟩ := rest.behind_opening breaksMore
    rw [closed] at further
    exact ⟨added, tail, areBreaks, further,
      .inr ⟨isLoose, comma, between, isComma, areBetween, rfl⟩⟩

/-- It makes no difference to most words whether an item has begun. -/
theorem Bracketing.next_filled {kind : Kind} (notBreak : kind ≠ .newline)
    (notColon : kind ≠ .symbol .colon) :
    next ⟨.list loose true :: frames, ended⟩ kind =
      next ⟨.list loose false :: frames, ended⟩ kind := by
  cases kind with
  | newline => contradiction
  | symbol mark => cases mark <;> first | contradiction | rfl
  | keyword word => cases word <;> rfl
  | name | number | string | boolean | nil | endOfInput => rfl

/-- A row goes on behind an opening bracket or a comma as it goes on in the midst of an item. -/
theorem Loosened.of_begun {tail : List Lexeme}
    (loosened : Loosened (next ⟨.list loose false :: frames, ended⟩ word.kind) rest tail)
    (notBreak : word.kind ≠ .newline) (notColon : word.kind ≠ .symbol .colon) :
    Loosened ⟨.list loose true :: frames, ended⟩ (word :: rest) (word :: tail) := by
  rw [← next_filled notBreak notColon] at loosened
  exact .word loosened

end Margins

end Parlance
