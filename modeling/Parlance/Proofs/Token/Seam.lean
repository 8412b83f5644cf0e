import Parlance.Proofs.Grammar.Relocation
import Parlance.Proofs.Token.Reach

/-!
Contract: two texts, one behind the other, are read one after the other.

If a text ends in a line feed and has no fault, what follows it does not change how it is read, and
is itself read as if it stood alone, some lines further down. Owns: this law, and the change of
places that it speaks of (`Relocation.down`).
-/

namespace Parlance

open Relocatable

/-! ## Moving down -/

/-- The span so many lines further down, in a text that has so many characters before it. Columns
stay as they are. -/
def Span.down (lines length : Nat) (span : Span) : Span :=
  { span with
    startLine := span.startLine + lines
    endLine := span.endLine + lines
    offset := span.offset + length }

/-- All spans some lines further down. -/
def Relocation.down (lines length : Nat) : Relocation :=
  ⟨Span.down lines length, fun _ _ => rfl⟩

def Position.down (lines length : Nat) (here : Position) : Position :=
  ⟨here.line + lines, here.column, here.offset + length⟩

section Down

variable {lines length : Nat}

theorem Position.after_down (here : Position) (c : Char) :
    (here.down lines length).after c = (here.after c).down lines length := by
  unfold Position.after Position.down
  split
  · simp [Nat.add_right_comm]
  · simp [Nat.add_right_comm]

theorem Position.afterAll_down (here : Position) (text : List Char) :
    (here.down lines length).afterAll text = (here.afterAll text).down lines length := by
  induction text generalizing here with
  | nil => rfl
  | cons c text ih =>
    rw [Position.afterAll_cons, Position.after_down, ih, Position.afterAll_cons]

theorem Span.point_down (here : Position) :
    Span.point (here.down lines length) = (Span.point here).down lines length := by
  simp [Span.point, Position.down, Span.down]

theorem Span.between_down (here behind : Position) :
    Span.between (here.down lines length) (behind.down lines length) =
      (Span.between here behind).down lines length := by
  simp [Span.between, Position.down, Span.down]

def Reading.relocate (change : Relocation) (reading : Reading) : Reading :=
  ⟨Relocatable.relocate change reading.tokens, reading.ending.relocate change⟩

/-- A text that stands some lines further down is read in the same way. -/
theorem Reading.readOn_down (last : Option Kind) (here : Position) (text : List Char) :
    readOn last (here.down lines length) 0 text =
      (readOn last here 0 text).relocate (.down lines length) := by
  have read := readOn_byPieces last here text
  generalize readOn last here 0 text = reading at read ⊢
  induction read with
  | @ended last here =>
    have sameEnd : Ending.finished (Span.point (here.down lines length)) =
        (Ending.finished (Span.point here)).relocate (.down lines length) :=
      congrArg Ending.finished (Span.point_down here)
    unfold readOn close
    dsimp only
    rw [sameEnd, Span.point_down]
    split <;> rfl
  | @fault last here first others cause isFault =>
    rw [readOn, isFault]
    dsimp only
    rw [Span.point_down]
    have sameFault : cause.relocate (.down lines length) = cause :=
      Fault.relocate_of_lexical _ (Piece.stage_of_read isFault)
    change _ = Reading.mk [] (.broken ⟨cause.relocate _, _⟩)
    rw [sameFault]
    rfl
  | gap isGap _ _ moved => rw [readOn_gap isGap, Position.afterAll_down, moved]
  | lineBreak isBreak _ _ moved =>
    rw [readOn_lineBreak isBreak, Position.afterAll_down, moved, Span.point_down]
    rfl
  | word isWord _ _ moved =>
    rw [readOn_word isWord, Position.afterAll_down, moved, Span.between_down]
    rfl

end Down

/-! ## Complete lines -/

/-- A text is empty, or its last line is ended by a line feed. -/
def EndsLine (text : List Char) : Prop :=
  ∀ c ∈ text.getLast?, c = '\n'

namespace EndsLine

variable {front rest : List Char}

theorem tail (ends : EndsLine (front ++ rest)) : EndsLine rest := by
  intro c isLast
  apply ends c
  rw [List.getLast?_append, Option.mem_def.mp isLast]
  rfl

theorem mem (ends : EndsLine front) (filled : front ≠ []) : '\n' ∈ front := by
  have isLast := List.getLast?_eq_some_getLast filled
  have same := ends _ isLast
  rw [← same]
  exact List.getLast_mem filled

/-- A piece in complete lines is read in the same way whatever follows the lines. -/
theorem read_append {signed : Bool} {first : Char} (ends : EndsLine (first :: front ++ rest))
    (sound : ∀ cause, Piece.read signed first (front ++ rest) ≠ .fault cause) (more : List Char) :
    Piece.read signed first (front ++ (rest ++ more)) =
      Piece.read signed first (front ++ rest) := by
  have feed : first = '\n' ∨ '\n' ∈ front ++ rest := by
    have member := ends.mem (List.cons_ne_nil first (front ++ rest))
    rcases List.mem_cons.mp member with same | behind
    · exact .inl same.symm
    · exact .inr behind
  rw [← List.append_assoc]
  exact Piece.read_append feed sound more

theorem not_gap {width : Nat} (ends : EndsLine front) (cuts : (Piece.gap width).Cuts front rest) :
    False := by
  cases cuts with
  | space => exact absurd (ends ' ' rfl) (by decide)
  | comment isComment =>
    rename_i body
    rcases List.eq_nil_or_concat body with rfl | ⟨start, c, concat⟩
    · exact absurd (ends '#' rfl) (by decide)
    · rw [List.concat_eq_append] at concat
      subst concat
      have isLast : (('#' :: start) ++ [c]).getLast? = some c := List.getLast?_concat
      have isFeed : c = '\n' := ends c isLast
      subst isFeed
      have stays := isComment.open_ start ['\n'] rfl (by simp)
      cases stays

theorem not_word {word : Lexeme} (ends : EndsLine front) (spelled : word.Spelled front) :
    False := by
  obtain ⟨start, c, rfl, noFeed⟩ := spelled.ends
  exact noFeed (ends c (by simp))

end EndsLine

/-- Behind complete lines begins a new one. -/
theorem columnAt_of_endsLine {text : List Char} (ends : EndsLine text) : columnAt text = 1 := by
  rcases List.eq_nil_or_concat text with rfl | ⟨start, c, rfl⟩
  · rfl
  · have isFeed : c = '\n' := ends c (by simp)
    subst isFeed
    simp [columnAt]

/-! ## Texts -/

namespace Reading

theorem readOn_newline (here : Position) (skip : Nat) (text : List Char) :
    readOn (some .newline) here skip text = readOn none here skip text := by
  induction text generalizing here skip with
  | nil =>
    rw [readOn, readOn]
    rfl
  | cons c text ih =>
    cases skip with
    | succ skip => exact ih (here.after c) skip
    | zero =>
      rw [readOn, readOn]
      have sameSign : (!(some Kind.newline).any Kind.endsOperand) =
          !(none : Option Kind).any Kind.endsOperand := rfl
      rw [sameSign]
      cases Piece.read (!(none : Option Kind).any Kind.endsOperand) c text with
      | gap width => exact ih (here.after c) (width - 1)
      | lineBreak width => rfl
      | word width kind text quote => rfl
      | fault cause => rfl

def follow (first second : Reading) : Reading :=
  ⟨first.tokens ++ second.tokens, second.ending⟩

/-- Behind complete lines without a fault, a text is read as at its start. -/
theorem readOn_append (last : Option Kind) (here : Position) (text more : List Char)
    (closed : text = [] → last = none ∨ last = some .newline) (ends : EndsLine text) {span : Span}
    (finished : (readOn last here 0 text).ending = .finished span) :
    readOn last here 0 (text ++ more) =
      (readOn last here 0 text).follow (readOn none (here.afterAll text) 0 more) := by
  have read := readOn_byPieces last here text
  generalize readOn last here 0 text = reading at read finished ⊢
  induction read with
  | @ended last here =>
    rcases closed rfl with rfl | rfl
    · rfl
    · exact readOn_newline here 0 more
  | fault => cases finished
  | gap isGap cuts _ follows =>
    have again := ends.read_append (by rw [isGap]; simp) more
    rw [isGap] at again
    rw [List.append_assoc, readOn_gap again, Position.afterAll_append]
    apply follows _ ends.tail finished
    intro nothing
    subst nothing
    rw [List.append_nil] at ends
    exact (ends.not_gap cuts).elim
  | lineBreak isBreak _ _ follows =>
    have again := ends.read_append (by rw [isBreak]; simp) more
    rw [isBreak] at again
    rw [List.append_assoc, readOn_lineBreak again, Position.afterAll_append,
      follows (fun _ => .inr rfl) ends.tail finished]
    rfl
  | @word last here word first front rest reading isWord spelled _ follows =>
    have again := ends.read_append (by rw [isWord]; simp) more
    rw [isWord] at again
    have opens : rest = [] → some word.kind = none ∨ some word.kind = some .newline := by
      intro nothing
      subst nothing
      rw [List.append_nil] at ends
      exact (ends.not_word spelled).elim
    rw [List.append_assoc, readOn_word again, Position.afterAll_append,
      follows opens ends.tail finished]
    rfl

/-- Complete lines without a fault, and then any text, are read one after the other. The second text
is read as if it stood alone, as many lines further down as the first has. -/
theorem ofText_append {front : String} {span : Span} (ends : EndsLine front.toList)
    (finished : (ofText front).ending = .finished span) (back : String) :
    ofText (front ++ back) =
      (ofText front).follow
        ((ofText back).relocate (.down (front.toList.count '\n') front.toList.length)) := by
  have place : Position.start.afterAll front.toList =
      Position.start.down (front.toList.count '\n') front.toList.length := by
    rw [Position.afterAll_start, columnAt_of_endsLine ends]
    simp [lineAt, Position.start, Position.down]
  unfold ofText
  rw [String.toList_append, readOn_append none .start front.toList back.toList (fun _ => .inl rfl)
    ends finished, place, readOn_down]

end Reading

end Parlance
