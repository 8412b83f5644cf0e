import Parlance.Proofs.Tint.Rules

/-!
Contract: the walk of a tinted text from piece to piece.

Owns: the pieces behind a given text (`Tint.onward`), that they tile the text, and the walk through a
stretch of a text. Pieces do not end where tokens end: a piece may run on over blanks, points and
digits, which are called faint. A stretch of a text is calm if the pieces that begin in it run on
over faint characters only (`Tint.Calm`). Does not own: which stretches are calm.
-/

namespace Parlance.Tint

variable {rest front stretch : List Char} {holds : Tint → Prop} {skip : Nat} {c : Char}

/-! ## Pieces behind a text -/

/-- The pieces of a text behind `before`, of which `skip` characters belong to a piece already
found. -/
def onward (before : List Char) (skip : Nat) (text : List Char) : List Piece :=
  piecesFrom before.length before.getLast? skip text

theorem onward_nil (before : List Char) (skip : Nat) : onward before skip [] = [] := by
  cases skip <;> rfl

theorem onward_skip (before : List Char) (skip : Nat) (c : Char) (rest : List Char) :
    onward before (skip + 1) (c :: rest) = onward (before ++ [c]) skip rest := by
  simp only [onward, piecesFrom, List.length_append, List.length_singleton, List.getLast?_append,
    List.getLast?_singleton, Option.some_or]

theorem onward_cons (before : List Char) (c : Char) (rest : List Char) :
    onward before 0 (c :: rest) =
      ⟨before.length, (first before.getLast? (c :: rest)).1,
          (c :: rest).take (first before.getLast? (c :: rest)).2⟩ ::
        onward (before ++ [c]) ((first before.getLast? (c :: rest)).2 - 1) rest := by
  simp only [onward, piecesFrom, List.length_append, List.length_singleton, List.getLast?_append,
    List.getLast?_singleton, Option.some_or]

/-- The characters of a piece already found are passed over. -/
theorem onward_append (before front rest : List Char) :
    onward before front.length (front ++ rest) = onward (before ++ front) 0 rest := by
  induction front generalizing before with
  | nil => rw [List.append_nil]; rfl
  | cons c front ih =>
    rw [List.cons_append, List.length_cons, onward_skip, ih, List.append_assoc,
      List.singleton_append]

/-- The piece at the front of a text, and the pieces behind it. -/
theorem onward_piece {before : List Char} {tint : Tint} (filled : stretch ≠ [])
    (same : first before.getLast? (stretch ++ rest) = (tint, stretch.length)) :
    onward before 0 (stretch ++ rest) =
      ⟨before.length, tint, stretch⟩ :: onward (before ++ stretch) 0 rest := by
  obtain ⟨c, more, rfl⟩ := List.exists_cons_of_ne_nil filled
  rw [List.cons_append] at same ⊢
  have whole : (c :: (more ++ rest)).take (c :: more).length = c :: more := by
    rw [← List.cons_append, List.take_left]
  rw [onward_cons, same]
  dsimp only
  rw [whole, List.length_cons, Nat.add_sub_cancel, onward_append, List.append_assoc,
    List.singleton_append]

theorem Stretch.filled {tint : Tint} (isStretch : Stretch tint stretch) : stretch ≠ [] := by
  cases isStretch with
  | word isListed =>
    have filled : (listed tint).all (fun word => !word.toList.isEmpty) = true := by
      cases tint <;> decide
    have isFilled := List.all_eq_true.mp filled _ isListed
    simpa using isFilled
  | symbol isSymbol =>
    rename_i mark
    cases mark <;> decide
  | _ => simp

theorem onward_pieces {motive : List Char → List Char → List Piece → Prop}
    (ended : ∀ before, motive before [] [])
    (piece : ∀ before stretch rest tint pieces, stretch ≠ [] →
      motive (before ++ stretch) rest pieces →
        motive before (stretch ++ rest) (⟨before.length, tint, stretch⟩ :: pieces))
    (before text : List Char) :
    motive before text (onward before 0 text) := by
  induction size : text.length using Nat.strongRecOn generalizing before text with
  | ind length ih =>
    by_cases empty : text = []
    · rw [empty, onward_nil]
      exact ended before
    · obtain ⟨stretch, ⟨rest, rfl⟩, width, isStretch⟩ := first_stretch before.getLast? empty
      have shorter : rest.length < length := by
        have positive := List.length_pos_iff.mpr isStretch.filled
        rw [List.length_append] at size
        omega
      rw [onward_piece isStretch.filled (Prod.ext rfl width)]
      exact piece before stretch rest _ _ isStretch.filled
        (ih rest.length shorter (before ++ stretch) rest rfl)

def Adjoin (offset : Nat) (pieces : List Piece) : Prop :=
  ∀ front piece back, pieces = front ++ piece :: back →
    piece.text ≠ [] ∧ piece.offset = offset + (front.map Piece.text).flatten.length

theorem onward_tiles (before text : List Char) :
    ((onward before 0 text).map Piece.text).flatten = text ∧
      Adjoin before.length (onward before 0 text) := by
  refine onward_pieces
    (motive := fun before text pieces =>
      (pieces.map Piece.text).flatten = text ∧ Adjoin before.length pieces)
    ?_ ?_ before text
  · intro before
    exact ⟨rfl, fun front piece back same => by simp at same⟩
  · intro before stretch rest tint pieces filled behind
    obtain ⟨whole, adjoin⟩ := behind
    refine ⟨by rw [List.map_cons, List.flatten_cons, whole], ?_⟩
    intro front piece back same
    cases front with
    | nil =>
      obtain ⟨rfl, -⟩ := List.cons.inj same
      exact ⟨filled, by simp⟩
    | cons head front =>
      obtain ⟨rfl, others⟩ := List.cons.inj same
      obtain ⟨isFilled, offset⟩ := adjoin front piece back others
      refine ⟨isFilled, ?_⟩
      rw [offset, List.length_append, List.map_cons, List.flatten_cons, List.length_append,
        Nat.add_assoc]

/-! ## Faint characters -/

/-- Blanks, points and digits. -/
def isFaint (c : Char) : Bool :=
  Text.isBlank c || c == '.' || c.isDigit

/-- A piece runs on over faint characters only. -/
def Faint (skip : Nat) (text : List Char) : Prop :=
  ∀ c ∈ text.take skip, isFaint c = true

/-- No piece runs on over a character that is not faint. -/
theorem Faint.eq_zero (faint : Faint skip (c :: rest)) (strong : isFaint c = false) : skip = 0 := by
  cases skip with
  | zero => rfl
  | succ skip =>
    rw [faint c (by simp)] at strong
    contradiction

theorem Faint.of_le {width : Nat} (within : width ≤ skip) (text : List Char) :
    Faint (width - skip) text := by
  rw [Nat.sub_eq_zero_of_le within]
  intro c member
  cases member

/-- What a stretch of faint characters takes behind a text is faint. -/
theorem Faint.of_stretch (leads : stretch <+: front ++ rest)
    (areFaint : ∀ c ∈ stretch, isFaint c = true) :
    Faint (stretch.length - front.length) rest := by
  intro c member
  have parts : stretch = front.take stretch.length ++ rest.take (stretch.length - front.length) := by
    rw [← List.take_append]
    exact List.prefix_iff_eq_take.mp leads
  apply areFaint
  rw [parts]
  exact List.mem_append_right _ member

theorem Faint.behind (faint : Faint skip (front ++ rest)) : Faint (skip - front.length) rest := by
  intro c member
  apply faint
  rw [List.take_append]
  exact List.mem_append_right _ member

/-! ## Calm stretches -/

/-- The pieces that begin in `front` have classes of a kind and run on behind it over faint
characters only. -/
def Calm (holds : Tint → Prop) (front rest : List Char) : Prop :=
  ∀ done c more, front = done ++ c :: more → ∀ before,
    holds (first before (c :: more ++ rest)).1 ∧
      Faint ((first before (c :: more ++ rest)).2 - (c :: more).length) rest

theorem Calm.tail (calm : Calm holds (c :: front) rest) : Calm holds front rest := by
  intro done d more same
  exact calm (c :: done) d more (by rw [same, List.cons_append])

theorem Calm.weaken {others : Tint → Prop} (calm : Calm holds front rest)
    (weaker : ∀ tint, holds tint → others tint) :
    Calm others front rest := by
  intro done c more same before
  obtain ⟨isKind, runsOn⟩ := calm done c more same before
  exact ⟨weaker _ isKind, runsOn⟩

/-- The walk through a calm stretch. -/
theorem Calm.walk (calm : Calm holds front rest) (before : List Char) (skip : Nat)
    (faint : Faint (skip - front.length) rest) :
    ∃ own left, onward before skip (front ++ rest) = own ++ onward (before ++ front) left rest ∧
      Faint left rest ∧
        ∀ piece ∈ own, holds piece.tint ∧ before.length ≤ piece.offset ∧
          piece.offset < (before ++ front).length := by
  induction front generalizing before skip with
  | nil => exact ⟨[], skip, by rw [List.append_nil]; rfl, by simpa using faint, by simp⟩
  | cons c front ih =>
    have further : ∀ skip, Faint (skip - front.length) rest →
        ∃ own left, onward (before ++ [c]) skip (front ++ rest) =
            own ++ onward (before ++ c :: front) left rest ∧ Faint left rest ∧
          ∀ piece ∈ own, holds piece.tint ∧ before.length ≤ piece.offset ∧
            piece.offset < (before ++ c :: front).length := by
      intro skip faint
      have behind := ih calm.tail (before ++ [c]) skip faint
      rw [List.append_assoc, List.singleton_append, List.length_append] at behind
      obtain ⟨own, left, same, isFaint, inside⟩ := behind
      refine ⟨own, left, same, isFaint, fun piece member => ?_⟩
      obtain ⟨isKind, low, high⟩ := inside piece member
      exact ⟨isKind, by omega, high⟩
    -- The character belongs to a piece already found, or a new piece begins with it.
    cases skip with
    | succ skip =>
      rw [List.cons_append, onward_skip]
      exact further skip (by simpa using faint)
    | zero =>
      obtain ⟨isKind, runsOn⟩ := calm [] c front rfl before.getLast?
      rw [List.cons_append, List.length_cons] at *
      obtain ⟨own, left, same, isFaint, inside⟩ := further
        ((first before.getLast? (c :: (front ++ rest))).2 - 1) (by
          rw [Nat.sub_sub, Nat.add_comm 1]
          exact runsOn)
      rw [onward_cons, same, ← List.cons_append]
      refine ⟨_, left, rfl, isFaint, ?_⟩
      rw [List.forall_mem_cons]
      refine ⟨⟨isKind, Nat.le_refl _, ?_⟩, inside⟩
      rw [List.length_append, List.length_cons]
      dsimp only
      omega

theorem Calm.cons (begins : ∀ before, holds (first before (c :: front ++ rest)).1 ∧
      Faint ((first before (c :: front ++ rest)).2 - (c :: front).length) rest)
    (calm : Calm holds front rest) :
    Calm holds (c :: front) rest := by
  intro done d more same
  cases done with
  | nil =>
    obtain ⟨rfl, rfl⟩ := List.cons.inj same
    exact begins
  | cons head done => exact calm done d more (List.cons.inj same).2

theorem Calm.nil (holds : Tint → Prop) (rest : List Char) : Calm holds [] rest := by
  intro done c more same
  simp at same

end Parlance.Tint
