import Mathlib.Data.List.DropRight
import Parlance.Proofs.Token.Joints
import Parlance.Session.Word

/-!
Contract: the word at a cursor and the token at that place.

A cursor is on a word of the text: a name or a reserved word. Owns: which word is found there. It is
looked for in the line that has the number of the token's row, so it is the token if no row above has
a break inside it, the row has none before the token, and no digit stands directly before the token.
-/

namespace Parlance

theorem Text.isLineBreak_eq_false {c : Char} (inName : Text.isNameContinue c = true) :
    Text.isLineBreak c = false := by
  rw [Bool.eq_false_iff]
  intro isBreak
  simp only [Text.isLineBreak, Bool.or_eq_true, beq_iff_eq] at isBreak
  rcases isBreak with ((((((((rfl | rfl) | rfl) | rfl) | rfl) | rfl) | rfl) | rfl) | rfl) | rfl <;>
    revert inName <;> decide +kernel

namespace Piece

theorem commentBody_word_append {word : List Char}
    (inName : ∀ c ∈ word, Text.isNameContinue c = true) (rest : List Char) :
    commentBody (word ++ rest) = word ++ commentBody rest := by
  induction word with
  | nil => rfl
  | cons c word ih =>
    rw [List.forall_mem_cons] at inName
    have noBreak := Text.isLineBreak_eq_false inName.1
    rw [List.cons_append, commentBody, ih inName.2, List.cons_append]
    · rintro rfl
      contradiction
    · rintro _ rfl
      contradiction

/-- A row begins like its text, if it is not empty. -/
theorem head_commentBody (text : List Char) : ∀ c ∈ (commentBody text).head?, c ∈ text.head? := by
  fun_cases commentBody text <;> simp

end Piece

namespace Session

def wordIn (line : List Char) (character : Int) : String :=
  match placeIn? line character with
  | some place => String.ofList (wordAround line place)
  | none => ""

theorem wordAt_of_line {source : String} {number : Nat} {line : List Char} (character : Int)
    (isLine : (Text.lines source.toList)[number]? = some line) :
    wordAt source number character = wordIn line character := by
  rw [wordAt, if_neg (by omega), Int.toNat_natCast, isLine]
  rfl

section Line

variable {front word rest : List Char} {character : Int}

theorem wordAround_word {place : Nat} (inName : ∀ c ∈ word, Text.isNameContinue c = true)
    (clear : ∀ c ∈ rest.head?, Text.isNameContinue c = false) (inside : place ≤ word.length) :
    wordAround (front ++ (word ++ rest)) (front.length + place) =
      front.rtakeWhile Text.isNameContinue ++ word := by
  have left : ((front ++ (word ++ rest)).take (front.length + place)).reverse =
      (word.take place).reverse ++ front.reverse := by
    rw [List.take_length_add_append, List.take_append_of_le_length inside, List.reverse_append]
  have right : (front ++ (word ++ rest)).drop (front.length + place) = word.drop place ++ rest := by
    rw [List.drop_length_add_append, List.drop_append_of_le_length inside]
  have leftward : ∀ c ∈ (word.take place).reverse, Text.isNameContinue c = true := fun c member =>
    inName c (List.mem_of_mem_take (List.mem_reverse.mp member))
  have rightward : ∀ c ∈ word.drop place, Text.isNameContinue c = true := fun c member =>
    inName c (List.mem_of_mem_drop member)
  rw [wordAround, left, right, List.takeWhile_append_of_pos leftward,
    takeWhile_stretch rightward clear, List.reverse_append, List.reverse_reverse, List.append_assoc,
    List.take_append_drop]
  rfl

/-- A cursor on a word or directly behind it means a place of the word. -/
theorem placeIn?_word (rest : List Char) (filled : word ≠ [])
    (isBehind : (front.length : Int) ≤ character)
    (isBefore : character ≤ front.length + word.length) :
    ∃ place ≤ word.length,
      placeIn? (front ++ (word ++ rest)) character = some (front.length + place) := by
  have long := List.length_pos_iff.mpr filled
  have length : (front ++ (word ++ rest)).length = front.length + (word.length + rest.length) := by
    rw [List.length_append, List.length_append]
  by_cases isInside : character < (front ++ (word ++ rest)).length
  · refine ⟨character.toNat - front.length, by omega, ?_⟩
    rw [placeIn?, if_pos (by simp only [Bool.and_eq_true, decide_eq_true_eq]; omega)]
    congr 1
    omega
  · -- Only behind a word that ends its line does the cursor mean the character before.
    refine ⟨character.toNat - 1 - front.length, by omega, ?_⟩
    rw [placeIn?, if_neg (by simp only [Bool.and_eq_true, decide_eq_true_eq]; omega),
      if_pos (by simp only [Bool.and_eq_true, decide_eq_true_eq]; omega)]
    congr 1
    omega

/-- A cursor on a word or directly behind it finds the word. -/
theorem wordIn_word (filled : word ≠ []) (inName : ∀ c ∈ word, Text.isNameContinue c = true)
    (clear : ∀ c ∈ rest.head?, Text.isNameContinue c = false)
    (isBehind : (front.length : Int) ≤ character)
    (isBefore : character ≤ front.length + word.length) :
    wordIn (front ++ (word ++ rest)) character =
      String.ofList (front.rtakeWhile Text.isNameContinue ++ word) := by
  obtain ⟨place, inside, isPlace⟩ := placeIn?_word rest filled isBehind isBefore
  rw [wordIn, isPlace]
  exact congrArg String.ofList (wordAround_word inName clear inside)

/-- A cursor beyond the end of a line finds nothing. -/
theorem wordIn_beyond {line : List Char} (isBeyond : (line.length : Int) < character) :
    wordIn line character = "" := by
  rw [wordIn, placeIn?, if_neg (by simp only [Bool.and_eq_true, decide_eq_true_eq]; omega),
    if_neg (by simp only [Bool.and_eq_true, decide_eq_true_eq]; omega)]

theorem wordIn_row (filled : word ≠ []) (inName : ∀ c ∈ word, Text.isNameContinue c = true)
    (clear : ∀ c ∈ rest.head?, Text.isNameContinue c = false)
    (isBehind : (front.length : Int) ≤ character)
    (isBefore : character ≤ front.length + word.length) :
    wordIn ((front ++ (word ++ rest)).takeWhile (!Text.isLineBreak ·)) character =
      if front.any Text.isLineBreak then ""
      else String.ofList (front.rtakeWhile Text.isNameContinue ++ word) := by
  cases isBroken : front.any Text.isLineBreak with
  | false =>
    have unbroken : ∀ c ∈ front ++ word, (!Text.isLineBreak c) = true := by
      rw [List.forall_mem_append]
      refine ⟨fun c member => ?_, fun c member => ?_⟩
      · rw [Bool.not_eq_true', ← Bool.not_eq_true]
        exact List.any_eq_false.mp isBroken c member
      · rw [Text.isLineBreak_eq_false (inName c member)]
        rfl
    rw [← List.append_assoc, List.takeWhile_append_of_pos unbroken, List.append_assoc,
      wordIn_word filled inName _ isBehind isBefore]
    · rfl
    · intro c isHead
      rw [List.head?_takeWhile] at isHead
      exact clear c (Option.filter_eq_some_iff.mp isHead).1
  | true =>
    obtain ⟨c, member, isBreak⟩ := List.any_eq_true.mp isBroken
    have open_ : (!Text.isLineBreak c) = false := by rw [isBreak]; rfl
    have leads : front.takeWhile (!Text.isLineBreak ·) <+: front := List.takeWhile_prefix _
    have shorter : (front.takeWhile (!Text.isLineBreak ·)).length ≠ front.length := by
      intro whole
      rw [← leads.eq_of_length whole] at member
      rw [List.mem_takeWhile_imp member] at open_
      contradiction
    rw [List.takeWhile_append, if_neg shorter, if_pos rfl]
    apply wordIn_beyond
    have := leads.length_le
    omega

end Line

variable {source before front back after : List Char} {above below : List (List Char)}
variable {first : Char} {here : Position} {token : Token}

/-- Characters of names stand directly before a word only if the last of them is a digit. -/
theorem rtakeWhile_eq_nil_iff (joins : here.Joins source before (first :: after))
    (starts : Text.isNameStart first = true) (isHere : token.span.StartsAt here)
    (division : Text.Division before (first :: after) above front back below) :
    front.rtakeWhile Text.isNameContinue = [] ↔ Tint.behindDigit source token = false := by
  have offset : token.span.offset.toNat = before.length := by
    rw [isHere.offset, joins.place, Position.afterAll_start, Int.toNat_natCast]
  have isDigit : Tint.behindDigit source token = before.getLast?.any Char.isDigit := by
    rw [Tint.behindDigit, offset, joins.whole, List.take_left]
  obtain ⟨lead, isLead, ending⟩ := division.ends
  rw [isDigit]
  rcases List.eq_nil_or_concat front with rfl | ⟨start, c, rfl⟩
  · -- The row begins here, so the character before is a line feed if there is one.
    rw [List.append_nil] at isLead
    subst isLead
    cases isLast : before.getLast? with
    | none => simp
    | some c =>
      rw [ending c isLast]
      simp
  · rw [List.concat_eq_append] at isLead ⊢
    have isLast : before.getLast? = some c := by
      rw [isLead, ← List.append_assoc]
      exact List.getLast?_concat
    rw [isLast]
    cases inName : Text.isNameContinue c with
    | true =>
      have digit := joins.joint.word c isLast first rfl inName starts
      simp [List.rtakeWhile_concat_pos _ _ _ inName, digit]
    | false =>
      have noDigit : c.isDigit = false := by
        rw [Bool.eq_false_iff]
        intro digit
        rw [Text.isNameContinue_of_isDigit digit] at inName
        contradiction
      simp [inName, noDigit]

/-- A word in its row: what stands before and behind it there, and the rows above and below. -/
structure WordRow (source : List Char) (token : Token) (above : List (List Char))
    (front rest : List Char) (below : List (List Char)) : Prop where
  whole : Text.rows source = above ++ (front ++ (token.text.toList ++ rest)) :: below
  line : token.span.startLine = above.length + 1
  column : token.span.startColumn = front.length + 1
  ends : token.span.endColumn = front.length + token.text.toList.length
  filled : token.text.toList ≠ []
  inName : ∀ c ∈ token.text.toList, Text.isNameContinue c = true
  clear : ∀ c ∈ rest.head?, Text.isNameContinue c = false
  before : front.rtakeWhile Text.isNameContinue = [] ↔ Tint.behindDigit source token = false

theorem exists_wordRow {source : String} (isToken : token ∈ (Reading.ofText source).tokens)
    (isWord : token.isWord = true) :
    ∃ above front rest below, WordRow source.toList token above front rest below := by
  obtain ⟨before, first, more, after, here, joins, isHere, leads⟩ :=
    ((Reading.ofText_atJoints source).tokens token isToken).word isWord
  obtain ⟨above, front, back, below, division⟩ := Text.exists_division joins.joint.apart
  have inName : ∀ c ∈ first :: more, Text.isNameContinue c = true :=
    List.forall_mem_cons.mpr ⟨Text.isNameContinue_of_isNameStart first leads.starts, leads.continues⟩
  have isText : token.text.toList = first :: more := by rw [leads.text, String.toList_ofList]
  have column : token.span.startColumn = front.length + 1 := by
    rw [isHere.column, joins.place, Position.afterAll_start, division.column]
    rfl
  refine ⟨above, front, Piece.commentBody after, below, ?_, ?_, column, ?_, ?_, ?_, ?_, ?_⟩
  · rw [joins.whole, division.whole, division.back_eq, Piece.commentBody_word_append inName, isText]
  · rw [isHere.line, joins.place, Position.afterAll_start, division.line]
    rfl
  · rw [leads.ends, column, isText, List.length_cons]
    omega
  · rw [isText]
    exact List.cons_ne_nil first more
  · rwa [isText]
  · intro c isHead
    exact leads.clear c (Piece.head_commentBody after c isHead)
  · exact rtakeWhile_eq_nil_iff joins leads.starts isHere division

theorem WordRow.found {rest : List Char} {character : Int}
    (row : WordRow source token above front rest below)
    (isBehind : token.span.startColumn - 1 ≤ character)
    (isBefore : character ≤ token.span.endColumn) :
    wordIn ((front ++ (token.text.toList ++ rest)).takeWhile (!Text.isLineBreak ·)) character =
      if front.any Text.isLineBreak then ""
      else String.ofList (front.rtakeWhile Text.isNameContinue) ++ token.text := by
  rw [row.column] at isBehind
  rw [row.ends] at isBefore
  rw [wordIn_row row.filled row.inName row.clear (by omega) isBefore, String.ofList_append,
    String.ofList_toList]

/-- A word is found exactly if neither a break nor a digit is in its way. -/
theorem WordRow.found_iff {rest : List Char} (row : WordRow source token above front rest below) :
    (if front.any Text.isLineBreak then ""
      else String.ofList (front.rtakeWhile Text.isNameContinue) ++ token.text) = token.text ↔
      front.any Text.isLineBreak = false ∧ Tint.behindDigit source token = false := by
  rw [← row.before]
  cases front.any Text.isLineBreak with
  | true =>
    have other : "" ≠ token.text := fun same => row.filled (by rw [← same]; rfl)
    simp [other]
  | false =>
    rw [if_neg Bool.false_ne_true, String.ext_iff]
    simp

/-- The word that is found at a cursor on a word of a text or directly behind it, told from the row
of the word. -/
structure Lookup (source : String) (token : Token) (character : Int) (above : List (List Char))
    (front rest : List Char) (below : List (List Char)) : Prop where
  row : WordRow source.toList token above front rest below
  /-- Where the rows above are unbroken, a break in the row hides the word, and the characters of
  names directly before it are taken for a part of it. -/
  answer : Text.strays above = 0 → wordAt source (token.span.startLine - 1) character =
    if front.any Text.isLineBreak then ""
    else String.ofList (front.rtakeWhile Text.isNameContinue) ++ token.text
  /-- There the word is found exactly if neither a break nor a digit is in its way. -/
  right : Text.strays above = 0 →
    (wordAt source (token.span.startLine - 1) character = token.text ↔
      front.any Text.isLineBreak = false ∧ Tint.behindDigit source.toList token = false)
  /-- In any case the word is looked for in the line that has the number of the row. -/
  shown : ∃ line, (Text.lines source.toList)[above.length]? = some line ∧
    wordAt source (token.span.startLine - 1) character = wordIn line character
  /-- The row itself begins so many lines further down as there are breaks in the rows above. -/
  begins : (Text.lines source.toList)[above.length + Text.strays above]? =
    some ((front ++ (token.text.toList ++ rest)).takeWhile (!Text.isLineBreak ·))

/-- **The word at a cursor.** A cursor on a name or a reserved word, or directly behind it, finds
this word exactly if its row has no break before it and no digit stands directly before it, unless
there are breaks in the rows above: then a line above the word is looked at. -/
theorem wordAt_token {source : String} {character : Int}
    (isToken : token ∈ (Reading.ofText source).tokens) (isWord : token.isWord = true)
    (isBehind : token.span.startColumn - 1 ≤ character)
    (isBefore : character ≤ token.span.endColumn) :
    ∃ above front rest below, Lookup source token character above front rest below := by
  obtain ⟨above, front, rest, below, row⟩ := exists_wordRow isToken isWord
  have begins := Text.lines_row row.whole (.inl (by simp [row.filled]))
  have early : above.length < (Text.lines source.toList).length := by
    obtain ⟨inLines, -⟩ := List.getElem?_eq_some_iff.mp begins
    omega
  have number : token.span.startLine - 1 = (above.length : Int) := by
    have := row.line
    omega
  have found : Text.strays above = 0 → wordAt source (token.span.startLine - 1) character =
      if front.any Text.isLineBreak then ""
      else String.ofList (front.rtakeWhile Text.isNameContinue) ++ token.text := by
    intro noStrays
    rw [noStrays, Nat.add_zero] at begins
    rw [number, wordAt_of_line character begins, row.found isBehind isBefore]
  refine ⟨above, front, rest, below, row, found, fun noStrays => ?_,
    ⟨_, List.getElem?_eq_getElem early, ?_⟩, begins⟩
  · rw [found noStrays, row.found_iff]
  · rw [number, wordAt_of_line character (List.getElem?_eq_getElem early)]

/-- Below a comment with a form feed in it, the cursor on a name finds a word of the comment. -/
theorem wordAt_misses_token :
    wordAt "# a\x0cb\nfoo = 1\n" 1 0 = "b" ∧
      (⟨.name, "foo", "", ⟨2, 1, 2, 3, 6⟩⟩ : Token) ∈
        (Reading.ofText "# a\x0cb\nfoo = 1\n").tokens ∧
      ∃ above front rest below, Lookup "# a\x0cb\nfoo = 1\n"
        ⟨.name, "foo", "", ⟨2, 1, 2, 3, 6⟩⟩ 0 above front rest below := by
  have isToken : (⟨.name, "foo", "", ⟨2, 1, 2, 3, 6⟩⟩ : Token) ∈
      (Reading.ofText "# a\x0cb\nfoo = 1\n").tokens := by decide +kernel
  exact ⟨by decide +kernel, isToken, wordAt_token isToken rfl (by decide) (by decide)⟩

end Session

end Parlance
