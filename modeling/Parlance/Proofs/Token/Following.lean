import Parlance.Proofs.Token.Spelling

/-!
Contract: what a word needs behind it in order to be read.

A word is read from its spelling unless the text behind it continues it. Owns: what continues a name
or a number (`Clear`), what continues a symbol (`Symbol.apart`), and one law for each kind of word.
A string ends itself, so anything may stand behind it.
-/

namespace Parlance

variable {c : Char} {mark : Symbol}

structure Clear (rest : List Char) : Prop where
  notWord : ∀ c ∈ rest.head?, Text.isNameContinue c = false
  notNumber : Piece.fraction rest = []

/-- Characters that do not continue a symbol. A digit behind a minus sign may make it a number. -/
def Symbol.apart (mark : Symbol) (c : Char) : Bool :=
  match mark.spelling.toList with
  | [first] => Symbol.ofTwo? first c == none && !(first == '-' && c.isDigit)
  | _ => true

namespace Text

theorem bounds_of_isDigit (isDigit : c.isDigit = true) : 48 ≤ c.toNat ∧ c.toNat ≤ 57 := by
  simpa [Char.isDigit, UInt32.le_iff_toNat_le] using isDigit

theorem isNameContinue_of_isDigit (isDigit : c.isDigit = true) : isNameContinue c = true := by
  have bounds := bounds_of_isDigit isDigit
  have tail : nameTailStripes.contains c.toNat = true := by
    unfold nameTailStripes
    rw [Stripes.contains, if_neg (by omega), if_pos (by omega)]
  simp [isNameContinue, tail]

theorem isDigit_eq_false_of_isNameStart (starts : isNameStart c = true) : c.isDigit = false := by
  cases isDigit : c.isDigit with
  | false => rfl
  | true =>
    have bounds := bounds_of_isDigit isDigit
    unfold isNameStart nameStartStripes at starts
    rw [Stripes.contains, if_pos (by omega)] at starts
    contradiction

theorem ne_of_isNameStart {other : Char} (starts : isNameStart c = true)
    (notStart : isNameStart other = false) : c ≠ other := by
  rintro rfl
  rw [starts] at notStart
  contradiction

theorem ne_of_isDigit {other : Char} (isDigit : c.isDigit = true)
    (notDigit : other.isDigit = false) : c ≠ other := by
  rintro rfl
  rw [isDigit] at notDigit
  contradiction

end Text

/-- A stretch of characters of one class ends before the first character of another. -/
theorem takeWhile_stretch {isPart : Char → Bool} {front rest : List Char}
    (inside : ∀ c ∈ front, isPart c = true) (outside : ∀ c ∈ rest.head?, isPart c = false) :
    (front ++ rest).takeWhile isPart = front := by
  have stops : rest.takeWhile isPart = [] := by
    cases rest with
    | nil => rfl
    | cons c rest => simp [outside c (by simp)]
  rw [List.takeWhile_append_of_pos inside, stops, List.append_nil]

theorem drop_takeWhile (isPart : Char → Bool) (text : List Char) :
    text.drop (text.takeWhile isPart).length = text.dropWhile isPart := by
  have parts : text.takeWhile isPart ++ text.dropWhile isPart = text :=
    List.takeWhile_append_dropWhile
  calc
    text.drop (text.takeWhile isPart).length =
        (text.takeWhile isPart ++ text.dropWhile isPart).drop (text.takeWhile isPart).length := by
      rw [parts]
    _ = text.dropWhile isPart := List.drop_left

theorem notPart_head_dropWhile (isPart : Char → Bool) (text : List Char) :
    ∀ c ∈ (text.dropWhile isPart).head?, isPart c = false := by
  intro c isHead
  have outside := List.head?_dropWhile_not isPart text
  rw [Option.mem_def.mp isHead] at outside
  simpa using outside

namespace Clear

theorem notDigit {rest : List Char} (clear : Clear rest) : ∀ c ∈ rest.head?, c.isDigit = false := by
  intro c isHead
  cases isDigit : c.isDigit with
  | false => rfl
  | true =>
    have continues := Text.isNameContinue_of_isDigit isDigit
    rw [clear.notWord c isHead] at continues
    contradiction

theorem cons (rest : List Char) (notWord : Text.isNameContinue c = false) (notPoint : c ≠ '.') :
    Clear (c :: rest) := by
  refine ⟨by simpa using notWord, ?_⟩
  unfold Piece.fraction
  split
  · rename_i point
    exact absurd (List.cons.inj point).1 notPoint
  · rfl

theorem space (rest : List Char) : Clear (' ' :: rest) := cons rest (by decide) (by decide)

theorem feed (rest : List Char) : Clear ('\n' :: rest) := cons rest (by decide) (by decide)

theorem symbol (rest : List Char) (notPoint : mark ≠ .dot) :
    Clear (mark.spelling.toList ++ rest) := by
  cases mark <;> first | contradiction | exact cons _ (by decide) (by decide)

/-- A point before a member continues no number. -/
theorem point (rest : List Char) (starts : Text.isNameStart c = true) :
    Clear ('.' :: c :: rest) := by
  refine ⟨by simp; decide, ?_⟩
  simp [Piece.fraction, Text.isDigit_eq_false_of_isNameStart starts]

end Clear

namespace Piece

variable {signed : Bool} {first : Char} {more rest : List Char}

theorem read_word (starts : Text.isNameStart first = true)
    (continues : ∀ c ∈ more, Text.isNameContinue c = true) (clear : Clear rest) :
    read signed first (more ++ rest) =
      .word (first :: more).length (Kind.ofWord (String.ofList (first :: more)))
        (String.ofList (first :: more)) "" := by
  have other : ∀ c, Text.isNameStart c = false → (first == c) = false := fun c notStart =>
    beq_eq_false_iff_ne.mpr (Text.ne_of_isNameStart starts notStart)
  unfold read
  rw [other ' ' (by decide), other '#' (by decide), other '\n' (by decide),
    other '\r' (by decide), other '\x22' (by decide), other '\x27' (by decide),
    Text.isDigit_eq_false_of_isNameStart starts, starts]
  simp only [Bool.false_and, Bool.or_self, Bool.false_eq_true, if_false, if_true, readWord]
  rw [takeWhile_stretch continues clear.notWord]

theorem fraction_eq {fraction : List Char} (isFraction : Fraction fraction) (clear : Clear rest) :
    Piece.fraction (fraction ++ rest) = fraction := by
  cases isFraction with
  | none => exact clear.notNumber
  | some isDigit areDigits =>
    simp only [List.cons_append, Piece.fraction, isDigit, if_true]
    rw [takeWhile_stretch areDigits clear.notDigit]

theorem digits_eq (numeral : Numeral (first :: more)) (clear : Clear rest) :
    digits first (more ++ rest) = .ok (first :: more) := by
  cases numeral with
  | mk isDigit areDigits noZero isFraction =>
    rename_i whole fraction
    have notDigit : ∀ c ∈ (fraction ++ rest).head?, c.isDigit = false := by
      cases isFraction with
      | none => exact clear.notDigit
      | some => simp
    have tail := fraction_eq isFraction clear
    unfold digits
    by_cases zero : first = '0'
    · obtain rfl := noZero zero
      rw [if_pos (by simpa using zero), List.nil_append]
      cases behind : fraction ++ rest with
      | nil =>
        rw [(List.append_eq_nil_iff.mp behind).1]
      | cons c others =>
        have stops := notDigit c (by simp [behind])
        dsimp only
        rw [stops, if_neg Bool.false_ne_true, ← behind, tail]
    · rw [if_neg (by simpa using zero), List.append_assoc]
      dsimp only
      rw [takeWhile_stretch areDigits notDigit, List.drop_left, tail, List.cons_append]

theorem read_number {sign text : List Char} (isSign : sign = [] ∨ sign = ['-'] ∧ signed = true)
    (numeral : Numeral text) (spelling : sign ++ text = first :: more) (clear : Clear rest) :
    read signed first (more ++ rest) =
      .word (first :: more).length .number (String.ofList (first :: more)) "" := by
  obtain ⟨digit, others, rfl⟩ := List.exists_cons_of_ne_nil numeral.plain.1
  have isDigit : digit.isDigit = true := by
    cases numeral with
    | mk isDigit => exact isDigit
  have other : ∀ c, c.isDigit = false → (digit == c) = false := fun c notDigit =>
    beq_eq_false_iff_ne.mpr (Text.ne_of_isDigit isDigit notDigit)
  rcases isSign with rfl | ⟨rfl, rfl⟩
  · obtain ⟨rfl, rfl⟩ := List.cons.inj spelling
    unfold read
    rw [other ' ' (by decide), other '#' (by decide), other '\n' (by decide),
      other '\r' (by decide), other '\x22' (by decide), other '\x27' (by decide), isDigit]
    simp [readNumber, digits_eq numeral clear]
  · rw [List.singleton_append] at spelling
    obtain ⟨rfl, rfl⟩ := List.cons.inj spelling
    have opens : read true '-' (digit :: others ++ rest) =
        if digit.isDigit && true then readNumber ['-'] digit (others ++ rest)
        else readSymbol '-' (digit :: others ++ rest) := rfl
    rw [opens, isDigit]
    simp [readNumber, digits_eq numeral clear, Nat.add_comm]

theorem takeWhile_quote {quote : Char} {body : List Char} (free : quote ∉ body) (rest : List Char) :
    (body ++ quote :: rest).takeWhile (· != quote) = body := by
  refine takeWhile_stretch (fun c member => ?_) (by simp)
  rw [bne_iff_ne]
  rintro rfl
  exact free member

theorem read_string {quote : Char} {body : List Char} (isQuote : quote = '\x22' ∨ quote = '\x27')
    (free : quote ∉ body) :
    read signed quote (body ++ quote :: rest) =
      .word (quote :: (body ++ [quote])).length .string (String.ofList body)
        (String.ofList [quote]) := by
  have opens : read signed quote (body ++ quote :: rest) =
      readString quote (body ++ quote :: rest) := by
    rcases isQuote with rfl | rfl <;> rfl
  rw [opens, readString, takeWhile_quote free]
  simp

/-- Before a character that does not continue it, a symbol is not the sign of a number. -/
theorem read_eq_readSymbol (spelling : mark.spelling.toList = first :: more)
    (apart : ∀ c ∈ rest.head?, mark.apart c = true) :
    read signed first (more ++ rest) = readSymbol first (more ++ rest) := by
  cases mark with
  | minus =>
    have sign : ['-'] = first :: more := spelling
    obtain ⟨rfl, rfl⟩ := List.cons.inj sign
    cases rest with
    | nil => rfl
    | cons c rest =>
      have parted : (Symbol.ofTwo? '-' c == none && !c.isDigit) = true := apart c rfl
      have notDigit : c.isDigit = false := by
        rw [Bool.and_eq_true, Bool.not_eq_true'] at parted
        exact parted.2
      have opens : read signed '-' (c :: rest) =
          if c.isDigit && signed then readNumber ['-'] c rest
          else readSymbol '-' (c :: rest) := rfl
      rw [List.nil_append, opens, notDigit, Bool.false_and, if_neg Bool.false_ne_true]
  | _ =>
    cases spelling
    rfl

/-- A symbol is read before a character that does not continue it. -/
theorem read_symbol (spelling : mark.spelling.toList = first :: more)
    (apart : ∀ c ∈ rest.head?, mark.apart c = true) :
    read signed first (more ++ rest) =
      .word (first :: more).length (.symbol mark) mark.spelling "" := by
  rw [read_eq_readSymbol spelling apart, readSymbol]
  cases more with
  | nil =>
    have alone : rest.head?.bind (Symbol.ofTwo? first) = none := by
      rw [Option.bind_eq_none_iff]
      intro c isHead
      have parted := apart c isHead
      simp only [Symbol.apart, spelling, Bool.and_eq_true, beq_iff_eq] at parted
      exact parted.1
    have one : Symbol.ofOne? first = some mark := by
      cases mark <;> cases spelling <;> rfl
    rw [List.nil_append, alone, one]
    rfl
  | cons second more =>
    have two : more = [] ∧ Symbol.ofTwo? first second = some mark := by
      cases mark <;> cases spelling <;> exact ⟨rfl, rfl⟩
    obtain ⟨rfl, two⟩ := two
    rw [List.singleton_append, List.head?_cons, Option.bind_some, two]
    rfl

end Piece

namespace Symbol

theorem apart_space (mark : Symbol) : mark.apart ' ' = true := by
  cases mark <;> rfl

/-- Symbols that no character continues. -/
def isTight : Symbol → Bool
  | .lparen | .rparen | .lbracket | .rbracket | .comma | .dot | .arrow | .doubleColon => true
  | _ => false

theorem apart_of_isTight (tight : mark.isTight = true) (c : Char) : mark.apart c = true := by
  cases mark <;> first | contradiction | rfl

end Symbol

end Parlance
