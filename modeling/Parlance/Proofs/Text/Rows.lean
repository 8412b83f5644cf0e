import Mathlib.Data.List.TakeWhile
import Parlance.Proofs.Token.Extent
import Parlance.Proofs.Token.Seam
import Parlance.Text.Lines

/-!
Contract: the rows of a text, and where its lines stand among them.

A row ends at a line feed, as the language counts; a carriage return before the line feed belongs to
no row. The lines that a text is shown by end at every kind of break, so a row may be several lines.
Owns: the rows, the place of a row among the lines (`lines_row`), and the row in which a text is
divided (`rows_append`). Does not own: which texts are divided where a line feed is behind its
carriage return.
-/

namespace Parlance.Text

/-- A text cut at each character that ends a part. A carriage return and a line feed behind it are
one end, and an end at the very end of the text opens an empty part. -/
def cut (ends : Char → Bool) : List Char → List (List Char)
  | [] => [[]]
  | '\r' :: '\n' :: rest => [] :: cut ends rest
  | c :: rest => if ends c then [] :: cut ends rest else (cut ends rest).modifyHead (c :: ·)

def rows (text : List Char) : List (List Char) :=
  cut (· == '\n') text

/-- The number of breaks in rows, none of which ends a row. -/
def strays (rows : List (List Char)) : Nat :=
  rows.flatten.countP isLineBreak

variable {c : Char} {ends : Char → Bool} {text row : List Char} {above below : List (List Char)}

theorem cut_cons (single : ∀ rest, c = '\r' → text = '\n' :: rest → False) :
    cut ends (c :: text) =
      if ends c then [] :: cut ends text else (cut ends text).modifyHead (c :: ·) := by
  rw [cut]
  exact single

theorem cut_cons_of_notMem (noFeed : '\n' ∉ text) :
    cut ends (c :: text) =
      if ends c then [] :: cut ends text else (cut ends text).modifyHead (c :: ·) :=
  cut_cons fun _ _ isFeed => noFeed (isFeed ▸ List.mem_cons_self)

theorem cut_ne_nil (ends : Char → Bool) (text : List Char) : cut ends text ≠ [] := by
  fun_induction cut ends text with
  | case4 c rest _ _ ih => simpa [List.modifyHead_eq_nil_iff] using ih
  | _ => simp

/-! ## Rows and lines -/

theorem feed_notMem_rows (text : List Char) : ∀ row ∈ rows text, '\n' ∉ row := by
  unfold rows
  fun_induction cut (· == '\n') text with
  | case1 => simp
  | case2 rest ih => simpa using ih
  | case3 c rest _ _ ih => simpa using ih
  | case4 c rest _ noFeed ih =>
    obtain ⟨first, others, isCut⟩ := List.exists_cons_of_ne_nil (cut_ne_nil (· == '\n') rest)
    rw [isCut, List.forall_mem_cons] at ih
    rw [isCut, List.modifyHead_cons, List.forall_mem_cons, List.mem_cons, not_or]
    exact ⟨⟨fun isFeed => noFeed (beq_iff_eq.mpr isFeed.symm), ih.1⟩, ih.2⟩

/-- The lines of a text are its parts, but for an empty last one. -/
theorem cut_eq_lines_append (text : List Char) :
    ∃ last, cut isLineBreak text = lines text ++ last ∧ (last = [] ∨ last = [[]]) := by
  fun_induction lines text with
  | case1 => exact ⟨[[]], rfl, .inr rfl⟩
  | case2 rest ih =>
    obtain ⟨last, same, isLast⟩ := ih
    exact ⟨last, by rw [cut, same, List.cons_append], isLast⟩
  | case3 c rest single isBreak ih =>
    obtain ⟨last, same, isLast⟩ := ih
    exact ⟨last, by rw [cut_cons single, if_pos isBreak, same, List.cons_append], isLast⟩
  | case4 c rest single noBreak noLine ih =>
    obtain ⟨last, same, isLast⟩ := ih
    rw [noLine, List.nil_append] at same
    have isOpen : last = [[]] := isLast.resolve_left (same ▸ cut_ne_nil _ _)
    exact ⟨[], by rw [cut_cons single, if_neg noBreak, same, isOpen]; rfl, .inl rfl⟩
  | case5 c rest single noBreak first following more ih =>
    obtain ⟨last, same, isLast⟩ := ih
    exact ⟨last, by rw [cut_cons single, if_neg noBreak, same, more]; rfl, isLast⟩

theorem cut_eq_flatMap_rows (text : List Char) :
    cut isLineBreak text = (rows text).flatMap (cut isLineBreak) := by
  unfold rows
  fun_induction cut (· == '\n') text with
  | case1 => rfl
  | case2 rest ih => rw [cut, ih]; rfl
  | case3 c rest single isFeed ih =>
    rw [cut_cons single, ih, beq_iff_eq.mp isFeed]
    rfl
  | case4 c rest single noFeed ih =>
    have noFeeds := feed_notMem_rows rest
    obtain ⟨first, others, isCut⟩ := List.exists_cons_of_ne_nil (cut_ne_nil (· == '\n') rest)
    rw [isCut, List.flatMap_cons] at ih
    rw [rows, isCut, List.forall_mem_cons] at noFeeds
    obtain ⟨part, parts, isParted⟩ :=
      List.exists_cons_of_ne_nil (cut_ne_nil isLineBreak first)
    -- The first row goes on with this character, and so does its first part.
    rw [isCut, List.modifyHead_cons, List.flatMap_cons, cut_cons_of_notMem noFeeds.1,
      cut_cons single, ih, isParted]
    split <;> rfl

theorem length_cut_row (noFeed : '\n' ∉ row) :
    (cut isLineBreak row).length = row.countP isLineBreak + 1 := by
  induction row with
  | nil => rfl
  | cons c rest ih =>
    rw [List.mem_cons, not_or] at noFeed
    rw [cut_cons_of_notMem noFeed.2]
    by_cases isBreak : isLineBreak c = true
    · rw [if_pos isBreak, List.length_cons, ih noFeed.2, List.countP_cons_of_pos isBreak]
    · rw [if_neg isBreak, List.length_modifyHead, ih noFeed.2, List.countP_cons_of_neg isBreak]

theorem head_cut_row (noFeed : '\n' ∉ row) :
    (cut isLineBreak row).head? = some (row.takeWhile (!isLineBreak ·)) := by
  induction row with
  | nil => rfl
  | cons c rest ih =>
    rw [List.mem_cons, not_or] at noFeed
    rw [cut_cons_of_notMem noFeed.2]
    by_cases isBreak : isLineBreak c = true
    · simp [isBreak]
    · simp [isBreak, ih noFeed.2]

/-- Rows have as many parts as there are rows and breaks in them. -/
theorem length_flatMap_cut (noFeeds : ∀ row ∈ above, '\n' ∉ row) :
    (above.flatMap (cut isLineBreak)).length = above.length + strays above := by
  induction above with
  | nil => rfl
  | cons row others ih =>
    rw [List.forall_mem_cons] at noFeeds
    rw [List.flatMap_cons, List.length_append, length_cut_row noFeeds.1, ih noFeeds.2,
      List.length_cons, strays, strays, List.flatten_cons, List.countP_append]
    omega

theorem lines_of_cut {index : Nat} {part : List Char}
    (isPart : (cut isLineBreak text)[index]? = some part)
    (isShown : part ≠ [] ∨ index + 1 < (cut isLineBreak text).length) :
    (lines text)[index]? = some part := by
  obtain ⟨last, isCut, isLast⟩ := cut_eq_lines_append text
  rw [isCut] at isPart isShown
  by_cases early : index < (lines text).length
  · rwa [List.getElem?_append_left early] at isPart
  · rw [List.getElem?_append_right (by omega)] at isPart
    rcases isLast with rfl | rfl
    · simp at isPart
    · -- Only the empty last part is no line, and nothing is behind it.
      obtain ⟨isEnd, isEmpty⟩ := List.getElem?_eq_some_iff.mp isPart
      simp at isEnd isEmpty isShown
      grind

/-- **A row among the lines.** A row that holds a character or has a row below it begins a line, as
far below the line of its own number as there are breaks in the rows above; the line holds what
stands before the first break of the row. -/
theorem lines_row (cutUp : rows text = above ++ row :: below) (isShown : row ≠ [] ∨ below ≠ []) :
    (lines text)[above.length + strays above]? = some (row.takeWhile (!isLineBreak ·)) := by
  have noFeeds := feed_notMem_rows text
  rw [cutUp, List.forall_mem_append, List.forall_mem_cons] at noFeeds
  obtain ⟨aboveWhole, rowWhole, belowWhole⟩ := noFeeds
  have inParts := cut_eq_flatMap_rows text
  rw [cutUp, List.flatMap_append, List.flatMap_cons] at inParts
  have length := congrArg List.length inParts
  rw [List.length_append, List.length_append, length_flatMap_cut aboveWhole,
    length_cut_row rowWhole, length_flatMap_cut belowWhole] at length
  apply lines_of_cut
  · rw [inParts, ← length_flatMap_cut aboveWhole, List.getElem?_append_right (Nat.le_refl _),
      Nat.sub_self, List.getElem?_append_left (by rw [length_cut_row rowWhole]; omega),
      ← List.head?_eq_getElem?, head_cut_row rowWhole]
  · by_cases isWhole : row.countP isLineBreak = 0
    · have unbroken : row.takeWhile (!isLineBreak ·) = row :=
        List.takeWhile_eq_self_iff.mpr (by simpa [List.countP_eq_zero] using isWhole)
      rw [unbroken]
      refine isShown.imp_right fun more => ?_
      have := List.length_pos_iff.mpr more
      omega
    · right
      omega

/-! ## The row in which a text is divided -/

/-- No carriage return stands before a line feed where two texts meet. -/
def Apart (before after : List Char) : Prop :=
  before.getLast? = some '\r' → after.head? ≠ some '\n'

/-- The row in which `before` ends and `after` begins, with the rows above and below it. -/
structure Division (before after : List Char) (above : List (List Char)) (front back : List Char)
    (below : List (List Char)) : Prop where
  whole : rows (before ++ after) = above ++ (front ++ back) :: below
  line : lineAt before = above.length + 1
  column : columnAt before = front.length + 1
  ends : ∃ lead, before = lead ++ front ∧ EndsLine lead
  begins : rows after = back :: below

variable {before after front back : List Char}

theorem Apart.tail (apart : Apart (c :: before) after) : Apart before after := fun isLast =>
  apart (by rw [List.getLast?_cons, isLast]; rfl)

theorem Apart.single (apart : Apart (c :: before) after)
    (single : ∀ rest, c = '\r' → before = '\n' :: rest → False) :
    ∀ rest, c = '\r' → before ++ after = '\n' :: rest → False := by
  intro rest isReturn meets
  cases before with
  | nil => exact apart (by rw [isReturn]; rfl) (by rw [← List.nil_append after, meets]; rfl)
  | cons next before =>
    exact single before isReturn (by rw [(List.cons.inj meets).1])

/-- The part in which one text ends is the part in which the next begins. -/
theorem cut_append (ends : Char → Bool) (apart : Apart before after) :
    ∃ above front back below, cut ends before = above ++ [front] ∧ cut ends after = back :: below ∧
      cut ends (before ++ after) = above ++ (front ++ back) :: below := by
  obtain ⟨back, below, isCut⟩ := List.exists_cons_of_ne_nil (cut_ne_nil ends after)
  fun_induction cut ends before with
  | case1 => exact ⟨[], [], back, below, rfl, isCut, isCut⟩
  | case2 rest ih =>
    obtain ⟨above, front, back, below, first, second, whole⟩ := ih apart.tail.tail
    refine ⟨[] :: above, front, back, below, by rw [first]; rfl, second, ?_⟩
    rw [List.cons_append, List.cons_append, cut, whole]
    rfl
  | case3 c rest single isEnd ih =>
    obtain ⟨above, front, back, below, first, second, whole⟩ := ih apart.tail
    refine ⟨[] :: above, front, back, below, by rw [first]; rfl, second, ?_⟩
    rw [List.cons_append, cut_cons (apart.single single), if_pos isEnd, whole]
    rfl
  | case4 c rest single noEnd ih =>
    obtain ⟨above, front, back, below, first, second, whole⟩ := ih apart.tail
    rw [List.cons_append, cut_cons (apart.single single), if_neg noEnd, whole, first]
    cases above with
    | nil => exact ⟨[], c :: front, back, below, rfl, second, rfl⟩
    | cons row above => exact ⟨(c :: row) :: above, front, back, below, rfl, second, rfl⟩

theorem rows_last (isCut : rows text = above ++ [front]) :
    ∃ lead, text = lead ++ front ∧ lead.count '\n' = above.length ∧ EndsLine lead := by
  unfold rows at isCut
  fun_induction cut (· == '\n') text generalizing above front with
  | case1 =>
    have isOne := List.append_eq_singleton_iff.mp isCut.symm
    simp only [List.cons_ne_self, and_false, or_false, List.cons.injEq, and_true] at isOne
    exact ⟨[], by simp [isOne.2], by simp [isOne.1], by simp [EndsLine]⟩
  | case2 rest ih =>
    cases above with
    | nil => exact absurd (List.cons.inj isCut).2 (cut_ne_nil _ _)
    | cons row above =>
      obtain ⟨lead, whole, count, ending⟩ := ih (List.cons.inj isCut).2
      refine ⟨'\r' :: '\n' :: lead, by rw [whole]; rfl, by simp [count], ?_⟩
      cases lead <;> simp_all [EndsLine]
  | case3 c rest single isFeed ih =>
    cases above with
    | nil => exact absurd (List.cons.inj isCut).2 (cut_ne_nil _ _)
    | cons row above =>
      obtain ⟨lead, whole, count, ending⟩ := ih (List.cons.inj isCut).2
      refine ⟨c :: lead, by rw [whole]; rfl, by simp [count, beq_iff_eq.mp isFeed], ?_⟩
      cases lead <;> simp_all [EndsLine]
  | case4 c rest single noFeed ih =>
    obtain ⟨first, others, isFirst⟩ := List.exists_cons_of_ne_nil (cut_ne_nil (· == '\n') rest)
    rw [isFirst, List.modifyHead_cons] at isCut
    cases above with
    | nil =>
      obtain ⟨rfl, rfl⟩ := List.cons.inj isCut
      obtain ⟨lead, whole, count, ending⟩ := @ih [] first isFirst
      -- Nothing leads: it would end with a line feed, and there is none.
      have nothing : lead = [] := by
        by_contra filled
        exact List.count_eq_zero.mp count (ending.mem filled)
      exact ⟨[], by rw [whole, nothing]; rfl, rfl, by simp [EndsLine]⟩
    | cons row above =>
      obtain ⟨rfl, isRest⟩ := List.cons.inj isCut
      obtain ⟨lead, whole, count, ending⟩ :=
        @ih (first :: above) front (by rw [isFirst, isRest]; rfl)
      have isOther : c ≠ '\n' := fun isFeed => noFeed (beq_iff_eq.mpr isFeed)
      refine ⟨c :: lead, by rw [whole]; rfl, by simp [isOther, count], ?_⟩
      cases lead <;> simp_all [EndsLine]

/-- The first row of a text runs up to its first line break. -/
theorem rows_head (text : List Char) : (rows text).head? = some (Piece.commentBody text) := by
  unfold rows
  fun_induction Piece.commentBody text with
  | case1 | case2 | case3 => rfl
  | case4 c rest noFeed noReturn ih =>
    have isOther : (c == '\n') = false := beq_eq_false_iff_ne.mpr noFeed
    rw [cut_cons noReturn, isOther, if_neg Bool.false_ne_true, List.head?_modifyHead, ih]
    rfl

theorem exists_division (apart : Apart before after) :
    ∃ above front back below, Division before after above front back below := by
  obtain ⟨above, front, back, below, first, second, whole⟩ := cut_append (· == '\n') apart
  obtain ⟨lead, isLead, count, ending⟩ := rows_last first
  have noFeed : '\n' ∉ front := feed_notMem_rows before front (by rw [rows, first]; simp)
  refine ⟨above, front, back, below, whole, ?_, ?_, ⟨lead, isLead, ending⟩, second⟩
  · rw [lineAt, isLead, List.count_append, count, List.count_eq_zero.mpr noFeed]
    omega
  · rw [isLead, columnAt_append noFeed, columnAt_of_endsLine ending]
    omega

namespace Division

theorem back_eq (division : Division before after above front back below) :
    back = Piece.commentBody after := by
  have begins := rows_head after
  rwa [division.begins, List.head?_cons, Option.some_inj] at begins

/-- The character behind `before` is the one of the row in its column, unless a line ends there. -/
theorem head_back (division : Division before after above front back below)
    (noBreak : startsBreak after = false) :
    (front ++ back)[front.length]? = (before ++ after)[before.length]? := by
  rw [List.getElem?_append_right (Nat.le_refl _), List.getElem?_append_right (Nat.le_refl _),
    Nat.sub_self, Nat.sub_self, division.back_eq]
  revert noBreak
  fun_cases Piece.commentBody after <;> simp [startsBreak]

/-- A row that a text begins in is not the empty last one, unless the text is empty. -/
theorem filled (division : Division before after above front back below) (filled : after ≠ []) :
    front ++ back ≠ [] ∨ below ≠ [] := by
  by_contra nothing
  rw [not_or, not_not, not_not, List.append_eq_nil_iff] at nothing
  have isOne : rows after = [] ++ [back] := by rw [division.begins, nothing.2]; rfl
  obtain ⟨lead, isLead, count, ending⟩ := rows_last isOne
  rw [nothing.1.2, List.append_nil] at isLead
  exact List.count_eq_zero.mp count (ending.mem (isLead ▸ filled))

end Division

end Parlance.Text
