import Parlance.Proofs.Layout.Compositor
import Parlance.Proofs.Token.Respacing

/-!
Contract: the text of a layout that is cut off.

If the words of a layout are read from its text, those of its front are read as well from a text that
is cut off somewhere behind them. Owns: this law (`Layout.exists_opens`), where a character of a text
stands in its layout, and what is read from a text that is cut off at a line break or in a string.
Does not own: which layouts are read as their words.
-/

namespace Parlance

open Lexeme

/-! ## The characters of words -/

section Spelled

variable {word : Lexeme} {spelling : List Char}

theorem Lexeme.Spelled.item_chars (spelled : word.Spelled spelling) (width : Int) :
    word.item.chars width = spelling := by
  cases spelled with
  | @word first more starts continues =>
    have isItem := item_ofWord (String.ofList (first :: more))
    rw [ofWord] at isItem
    rw [isItem, Layout.Item.chars, String.toList_ofList]
  | number | symbol | string => simp [item, Layout.Item.chars]

/-- Only strings hold line feeds and spaces. -/
theorem Lexeme.Spelled.plain (spelled : word.Spelled spelling) (notString : word.kind ≠ .string) :
    ∀ c ∈ spelling, c ≠ '\n' ∧ c ≠ ' ' := by
  intro c member
  cases spelled with
  | word starts continues =>
    have isPart : Text.isNameContinue c = true := by
      rcases List.mem_cons.mp member with rfl | member
      · exact Text.isNameContinue_of_isNameStart c starts
      · exact continues c member
    constructor
    · rintro rfl
      revert isPart
      decide
    · rintro rfl
      revert isPart
      decide
  | number isSign numeral =>
    have isPart : c = '-' ∨ c = '.' ∨ c.isDigit = true := by
      rcases List.mem_append.mp member with member | member
      · rcases isSign with rfl | rfl
        · cases member
        · exact .inl (List.mem_singleton.mp member)
      · exact .inr (numeral.plain.2 c member)
    constructor
    · rintro rfl
      revert isPart
      decide
    · rintro rfl
      revert isPart
      decide
  | string => contradiction
  | symbol mark =>
    have isPlain : mark.spelling.toList.all (fun c => c != '\n' && c != ' ') = true := by
      cases mark <;> decide
    simpa using List.all_eq_true.mp isPlain c member

/-- No word ends in a line feed or a space. -/
theorem Lexeme.Spelled.ends_plain (spelled : word.Spelled spelling) :
    ∃ front c, spelling = front ++ [c] ∧ c ≠ '\n' ∧ c ≠ ' ' := by
  by_cases isString : word.kind = .string
  · cases spelled with
    | word => exact absurd isString (Kind.ofWord_ne _).2.1
    | string isQuote free =>
      refine ⟨_ :: _, _, rfl, ?_⟩
      rcases isQuote with rfl | rfl <;> decide
    | number | symbol => contradiction
  · obtain ⟨front, c, isSpelling, -⟩ := spelled.ends
    exact ⟨front, c, isSpelling, spelled.plain isString c (by simp [isSpelling])⟩

end Spelled

/-! ## Texts that are cut off -/

namespace Reading

variable {last : Option Kind} {words : List Lexeme} {rest front : List Char} {first : Char}

theorem gives_feed_iff :
    Gives last ('\n' :: rest) words ↔
      ∃ others, words = lineBreak :: others ∧ Gives (some .newline) rest others := by
  have read : Piece.read (!last.any Kind.endsOperand) '\n' ([] ++ rest) = .lineBreak 1 := rfl
  constructor
  · intro gives
    obtain ⟨others, isWords⟩ : ∃ others, words = lineBreak :: others :=
      ⟨_, gives.1.symm.trans (congrArg (·.tokens.map Token.lexeme) (readOn_lineBreak read))⟩
    rw [isWords] at gives
    exact ⟨others, isWords, (gives_lineBreak read).mp gives⟩
  · rintro ⟨others, rfl, gives⟩
    exact (gives_lineBreak read).mpr gives

theorem gives_word_iff {word : Lexeme}
    (read : Piece.read (!last.any Kind.endsOperand) first (front ++ rest) =
      .word (first :: front).length word.kind word.text word.quote) :
    Gives last (first :: front ++ rest) words ↔
      ∃ others, words = word :: others ∧ Gives (some word.kind) rest others := by
  constructor
  · intro gives
    obtain ⟨others, isWords⟩ : ∃ others, words = word :: others :=
      ⟨_, gives.1.symm.trans (congrArg (·.tokens.map Token.lexeme) (readOn_word read))⟩
    rw [isWords] at gives
    exact ⟨others, isWords, (gives_word read).mp gives⟩
  · rintro ⟨others, rfl, gives⟩
    exact (gives_word read).mpr gives

/-- A string that is not closed is a fault. -/
theorem not_gives_of_open {quote : Char} {inner : List Char}
    (isQuote : quote = '\x22' ∨ quote = '\x27') (free : quote ∉ inner) :
    ¬Gives last (quote :: inner) words := by
  rintro ⟨-, span, finished⟩
  have inside : ∀ c ∈ inner, (c != quote) = true :=
    fun c member => bne_iff_ne.mpr fun same => free (same ▸ member)
  have whole : inner.takeWhile (· != quote) = inner := by
    simpa using @List.takeWhile_append_of_pos _ _ _ [] inside
  have fault : Piece.read (!last.any Kind.endsOperand) quote inner = .fault (.openString quote) := by
    have isString : Piece.read (!last.any Kind.endsOperand) quote inner =
        Piece.readString quote inner := by
      rcases isQuote with rfl | rfl <;> rfl
    rw [isString, Piece.readString, whole]
    exact if_neg (Nat.lt_irrefl _)
  rw [readOn, fault] at finished
  cases finished

end Reading

namespace Layout

open Reading

variable {width : Int} {last : Option Kind} {words before : List Lexeme} {front back : Layout}

/-- Wherever the text of a layout is cut off behind its front, it gives the words of the front, and
then what the rest of it gives. -/
def Opens (width : Int) (last : Option Kind) (front back : Layout) (before : List Lexeme) : Prop :=
  ∀ stub more, chars width back = stub ++ more → ∀ words,
    Gives last (chars width front ++ stub) words ↔
      ∃ after, words = before ++ after ∧ Gives (lastKind last before) stub after

theorem blank_replicate (count : Nat) : Blank (List.replicate count ' ') :=
  fun _ member => (List.mem_replicate.mp member).2

theorem Opens.nil : Opens width last [] back [] := by
  intro stub more isStub words
  simp [lastKind]

theorem Opens.space (opens : Opens width last front back before) :
    Opens width last (.space :: front) back before := by
  intro stub more isStub words
  rw [← opens stub more isStub words]
  exact gives_blank (blank_replicate 1)

theorem Opens.line {level : Nat} (opens : Opens width (some .newline) front back before) :
    Opens width last (.line level :: front) back (lineBreak :: before) := by
  intro stub more isStub words
  rw [chars_cons, Item.chars, List.cons_append, List.cons_append, gives_feed_iff, List.append_assoc]
  constructor
  · rintro ⟨others, rfl, gives⟩
    rw [gives_blank (blank_replicate _), opens stub more isStub] at gives
    obtain ⟨after, rfl, gives⟩ := gives
    exact ⟨after, rfl, gives⟩
  · rintro ⟨after, rfl, gives⟩
    refine ⟨before ++ after, rfl, ?_⟩
    rw [gives_blank (blank_replicate _), opens stub more isStub]
    exact ⟨after, rfl, gives⟩

/-- A text that is cut off looks no different to a word before the place. -/
theorem alike_stub (text stub more : List Char) : Alike 2 (text ++ (stub ++ more)) (text ++ stub) :=
  ⟨text ++ stub, more, [], by simp, by simp, .inr (by simp [Sheltered])⟩

theorem Opens.word {item : Item} {word : Lexeme} {spelling : List Char}
    (isSpelling : item.chars width = spelling) (spelled : word.Spelled spelling)
    (gives : Gives last (chars width (item :: (front ++ back))) (word :: words))
    (opens : Opens width (some word.kind) front back before) :
    Opens width last (item :: front) back (word :: before) := by
  intro stub more isStub words
  obtain ⟨first, others, rfl, -⟩ := spelled.begins
  rw [chars_cons, isSpelling, chars_append, isStub] at gives
  have read := Piece.read_word_alike (read_of_gives spelled gives) (alike_stub _ stub more)
  rw [chars_cons, isSpelling, List.append_assoc, gives_word_iff read]
  constructor
  · rintro ⟨rest, rfl, gives⟩
    rw [opens stub more isStub] at gives
    obtain ⟨after, rfl, gives⟩ := gives
    exact ⟨after, rfl, gives⟩
  · rintro ⟨after, rfl, gives⟩
    refine ⟨before ++ after, rfl, ?_⟩
    rw [opens stub more isStub]
    exact ⟨after, rfl, gives⟩

/-- The item of a legible word is its spelling, unless it is a line. -/
theorem exists_spelled {word : Lexeme} (legible : word.Legible) (isWord : word.item.isWord = true) :
    ∃ spelling, word.Spelled spelling := by
  rcases legible with isBreak | spelled
  · rw [item, isBreak] at isWord
    contradiction
  · exact spelled

/-- If the words of a layout are read from its text, those of its front are read from any text that is
cut off behind them. -/
theorem exists_opens (gives : Gives last (chars width (front ++ back)) words)
    (items : words.map item = bare (front ++ back)) (legible : ∀ word ∈ words, word.Legible) :
    ∃ before after, words = before ++ after ∧ before.map item = bare front ∧
      Opens width last front back before := by
  induction front generalizing last words with
  | nil => exact ⟨[], words, rfl, rfl, .nil⟩
  | cons first front ih =>
    have onWord : first.isWord = true → ∃ before after, words = before ++ after ∧
        before.map item = bare (first :: front) ∧
          Opens width last (first :: front) back before := by
      intro isWord
      rw [List.cons_append, bare_of_isWord isWord] at items
      obtain ⟨word, others, rfl, rfl, sameOthers⟩ := List.map_eq_cons_iff.mp items
      obtain ⟨isLegible, legibleOthers⟩ := List.forall_mem_cons.mp legible
      obtain ⟨spelling, spelled⟩ := exists_spelled isLegible isWord
      have isSpelling := spelled.item_chars width
      have behind : Gives (some word.kind) (chars width (front ++ back)) others := by
        obtain ⟨c, more, rfl, -⟩ := spelled.begins
        rw [List.cons_append, chars_cons, isSpelling] at gives
        exact (gives_word (read_of_gives spelled gives)).mp gives
      obtain ⟨before, after, rfl, sameBefore, opens⟩ :=
        ih behind sameOthers legibleOthers
      refine ⟨word :: before, after, rfl, ?_, .word isSpelling spelled gives opens⟩
      rw [List.map_cons, sameBefore, bare_of_isWord isWord]
    cases first with
    | word text => exact onWord rfl
    | quoted quote text => exact onWord rfl
    | space =>
      have behind := (gives_blank (blank_replicate 1)).mp gives
      obtain ⟨before, after, same, sameBefore, opens⟩ :=
        ih behind items legible
      exact ⟨before, after, same, sameBefore, opens.space⟩
    | line level =>
      obtain ⟨others, rfl, indented⟩ := gives_feed_iff.mp gives
      have behind : Gives (some .newline) (chars width (front ++ back)) others :=
        (gives_blank (blank_replicate _)).mp indented
      have sameOthers : others.map item = bare (front ++ back) := (List.cons.inj items).2
      obtain ⟨before, after, rfl, sameBefore, opens⟩ :=
        ih behind sameOthers (List.forall_mem_cons.mp legible).2
      refine ⟨lineBreak :: before, after, rfl, ?_, opens.line⟩
      rw [List.map_cons, sameBefore]
      rfl

/-! ## Places in a text -/

theorem exists_item_of_chars {layout : Layout} {text rest : List Char} {c : Char}
    (same : chars width layout = text ++ c :: rest) :
    ∃ front item back inner outer, layout = front ++ item :: back ∧
      item.chars width = inner ++ c :: outer ∧ text = chars width front ++ inner ∧
        rest = outer ++ chars width back := by
  induction layout generalizing text with
  | nil => simp at same
  | cons first layout ih =>
    rw [chars_cons] at same
    rcases List.append_eq_append_iff.mp same with ⟨further, rfl, behind⟩ | ⟨inside, isFirst, behind⟩
    · obtain ⟨front, item, back, inner, outer, rfl, isItem, rfl, rfl⟩ :=
        ih behind
      exact ⟨first :: front, item, back, inner, outer, rfl, isItem, by simp, rfl⟩
    · cases inside with
      | nil =>
        have atFront : chars width layout = [] ++ c :: rest := behind.symm
        obtain ⟨front, item, back, inner, outer, rfl, isItem, nothing, rfl⟩ :=
          ih atFront
        refine ⟨first :: front, item, back, inner, outer, rfl, isItem, ?_, rfl⟩
        rw [List.append_nil] at isFirst
        rw [chars_cons, List.append_assoc, ← nothing, List.append_nil, isFirst]
      | cons d inside =>
        obtain ⟨rfl, rfl⟩ := List.cons.inj behind
        exact ⟨[], first, layout, text, inside, rfl, isFirst, rfl, rfl⟩

end Layout

end Parlance
