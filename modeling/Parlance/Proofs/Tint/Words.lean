import Parlance.Proofs.Tint.Calm

/-!
Contract: how words are tinted.

Owns: when a listed word is found at its boundaries (`Tint.Rule.words_eq`), the piece at the front of
a listed word and of any other name, and the names that are tinted as one piece (`Tint.paintsName`).
The rules know a name by its ASCII letters and digits and one question mark behind them, and they
look for listed words first, with a boundary before the question mark but none behind a digit.
-/

namespace Parlance.Tint

variable {before : Option Char} {tint : Tint} {word : String} {base behind text rest : List Char}
variable {initial : Char}

/-! ## Listed words -/

theorem isNameChar_of_listed (isListed : word ∈ listed tint) :
    ∀ c ∈ word.toList, Rule.isNameChar c = true := by
  have checked : (listed tint).all (fun word => word.toList.all Rule.isNameChar) = true := by
    cases tint <;> decide
  exact List.all_eq_true.mp (List.all_eq_true.mp checked word isListed)

/-- A letter and the letters and digits behind it, with no word character behind them. -/
structure Bounded (base behind : List Char) : Prop where
  begins : ∃ first inner, base = first :: inner ∧ isLetter first = true
  inside : ∀ c ∈ base, Rule.isNameChar c = true
  outside : ∀ c ∈ behind.head?, Text.isWordChar c = false

/-- Of the words with letters and digits only, the whole stretch is the one that stands at its
boundaries. -/
theorem Bounded.stands_iff {word : List Char} (bounded : Bounded base behind) (filled : word ≠ [])
    (isWord : ∀ c ∈ word, Rule.isNameChar c = true) :
    (word.isPrefixOf (base ++ behind) &&
      !Rule.insideWord ((base ++ behind).take word.length).getLast?
        ((base ++ behind).drop word.length).head?) = true ↔ word = base := by
  have ends : ∀ c ∈ behind.head?, Rule.isNameChar c = false := by
    intro c isHead
    rw [Bool.eq_false_iff]
    intro isNameChar
    have isWordChar := isWordChar_of_isNameChar isNameChar
    rw [bounded.outside c isHead] at isWordChar
    contradiction
  rw [Bool.and_eq_true, List.isPrefixOf_iff_prefix, Bool.not_eq_true']
  constructor
  · rintro ⟨leads, atBoundary⟩
    have short := Greedy.length_le_takeWhile leads isWord
    rw [takeWhile_stretch bounded.inside ends] at short
    obtain ⟨more, rfl⟩ :=
      List.prefix_of_prefix_length_le leads (List.prefix_append base behind) short
    cases more with
    | nil => rw [List.append_nil]
    | cons d more =>
      -- A letter or digit follows the shorter word, so no boundary is there.
      obtain ⟨front, last, rfl⟩ := List.eq_nil_or_concat word |>.resolve_left filled
      have isLast := isWordChar_of_isNameChar (isWord last (by simp))
      have isNext := isWordChar_of_isNameChar (bounded.inside d (by simp))
      rw [List.append_assoc, List.take_left, List.drop_left] at atBoundary
      simp [Rule.insideWord, isLast, isNext] at atBoundary
  · rintro rfl
    refine ⟨List.prefix_append word behind, ?_⟩
    rw [List.take_left, List.drop_left, Rule.insideWord, Bool.and_eq_false_iff]
    right
    cases behind with
    | nil => rfl
    | cons c behind => exact bounded.outside c rfl

/-- Where a word may begin, a rule of listed words takes the whole stretch if it is listed. -/
theorem Rule.words_eq (tint : Tint) (bounded : Bounded base behind)
    (free : Rule.insideWord before (base ++ behind).head? = false) :
    Rule.words (listed tint) before (base ++ behind) =
      if String.ofList base ∈ listed tint then base.length else 0 := by
  have stands : ∀ word ∈ listed tint,
      (word.toList.isPrefixOf (base ++ behind) &&
        !Rule.insideWord ((base ++ behind).take word.toList.length).getLast?
          ((base ++ behind).drop word.toList.length).head?) = true ↔ word = String.ofList base := by
    intro word isListed
    have filled : word.toList ≠ [] := (Stretch.word isListed).filled
    rw [bounded.stands_iff filled (isNameChar_of_listed isListed)]
    constructor
    · intro same
      rw [← same, String.ofList_toList]
    · intro same
      rw [same, String.toList_ofList]
  unfold Rule.words
  rw [if_neg (by rw [free]; exact Bool.false_ne_true)]
  split
  · rename_i word found
    have isListed := List.mem_of_find?_eq_some found
    have holds := List.find?_some found
    have same := (stands word isListed).mp holds
    rw [same] at isListed
    rw [if_pos isListed, same, String.toList_ofList]
  · rename_i nothing
    have notListed : String.ofList base ∉ listed tint := by
      intro isListed
      exact List.find?_eq_none.mp nothing _ isListed ((stands _ isListed).mpr rfl)
    rw [if_neg notListed]

theorem Rule.words_eq_zero (words : List String)
    (inside : Rule.insideWord before text.head? = true) :
    Rule.words words before text = 0 :=
  if_pos inside

/-! ## The piece at the front of a word -/

/-- The classes with listed words, in the order in which they are tried. -/
def wordTints : List Tint :=
  [.declaration, .wordOperator, .keyword, .constant, .selfName]

/-- A stretch of letters and digits is listed under some class. -/
def isListed (word : List Char) : Bool :=
  wordTints.any fun tint => (listed tint).contains (String.ofList word)

/-- At a letter the rules of listed words are tried first, and then those of names. -/
theorem first_letter {c : Char} (isLetter : Tint.isLetter c = true) (before : Option Char)
    (rest : List Char) :
    first before (c :: rest) =
      firstOf before (c :: rest)
        ((wordTints.map fun tint => (tint, Rule.words (listed tint))) ++ rules.drop 11) := by
  have continues := isNameContinue_of_isNameChar (isNameChar_of_isLetter isLetter)
  have notDigit := Text.isDigit_eq_false_of_isNameStart (isNameStart_of_isLetter isLetter)
  refine first_drop 6 fun tint member => ?_
  rw [Bool.eq_false_iff]
  intro opens
  obtain ⟨notBlank, isQuiet, -⟩ := opens_of_isNameContinue continues opens
  have others : tint = .decimal ∨ tint = .whole := by
    revert member notBlank isQuiet
    cases tint <;> decide
  rcases others with rfl | rfl <;> rw [Tint.opens, notDigit] at opens <;> contradiction

theorem firstOf_front {front back : List (Tint × Rule)}
    (taken : ∃ entry ∈ front, entry.2 before text ≠ 0) :
    firstOf before text (front ++ back) = firstOf before text front := by
  induction front with
  | nil =>
    obtain ⟨entry, member, -⟩ := taken
    cases member
  | cons head front ih =>
    rw [List.cons_append, firstOf, firstOf]
    cases length : head.2 before text with
    | succ length => rfl
    | zero =>
      obtain ⟨entry, member, isTaken⟩ := taken
      rcases List.mem_cons.mp member with rfl | member
      · contradiction
      · exact ih ⟨entry, member, isTaken⟩

/-- Where a word may begin, a listed word is one piece of the class it is listed under. -/
theorem first_listed (bounded : Bounded base behind)
    (free : Rule.insideWord before (base ++ behind).head? = false)
    (isListed : Tint.isListed base = true) :
    ∃ tint ∈ wordTints, String.ofList base ∈ listed tint ∧
      first before (base ++ behind) = (tint, base.length) := by
  have width := fun tint => Rule.words_eq tint bounded free
  obtain ⟨initial, inner, rfl, isLetter⟩ := bounded.begins
  have taken : ∃ entry ∈ wordTints.map fun tint => (tint, Rule.words (listed tint)),
      entry.2 before (initial :: inner ++ behind) ≠ 0 := by
    obtain ⟨tint, member, found⟩ := List.any_eq_true.mp isListed
    refine ⟨(tint, Rule.words (listed tint)), List.mem_map_of_mem member, ?_⟩
    dsimp only
    rw [width tint, if_pos (List.contains_iff_mem.mp found)]
    simp
  have start : first before (initial :: inner ++ behind) =
      firstOf before (initial :: inner ++ behind)
        (wordTints.map fun tint => (tint, Rule.words (listed tint))) := by
    rw [List.cons_append, first_letter isLetter]
    exact firstOf_front taken
  rw [start]
  rcases firstOf_cases before (initial :: inner ++ behind)
      (wordTints.map fun tint => (tint, Rule.words (listed tint))) with
    ⟨entry, member, isTaken, same⟩ | ⟨nothing, -⟩
  · obtain ⟨tint, isTint, rfl⟩ := List.mem_map.mp member
    dsimp only at isTaken same
    rw [width tint] at isTaken same
    by_cases found : String.ofList (initial :: inner) ∈ listed tint
    · rw [if_pos found] at same
      exact ⟨tint, isTint, found, same⟩
    · rw [if_neg found] at isTaken
      contradiction
  · obtain ⟨entry, member, isTaken⟩ := taken
    exact absurd (nothing entry member) isTaken

theorem isNameChar_eq_false {c : Char} (clear : Text.isNameContinue c = false) :
    Rule.isNameChar c = false := by
  rw [Bool.eq_false_iff]
  intro isNameChar
  rw [isNameContinue_of_isNameChar isNameChar] at clear
  contradiction

/-- A name runs to its end, with the question mark if there is one. -/
theorem Rule.nameFrom_of_parts {first : Char → Bool} {inner ending : List Char}
    (before : Option Char) (isFirst : first initial = true)
    (areInner : ∀ c ∈ inner, Rule.isNameChar c = true) (isEnding : ending = [] ∨ ending = ['?'])
    (clear : ∀ c ∈ rest.head?, Text.isNameContinue c = false) :
    Rule.nameFrom first before (initial :: (inner ++ ending) ++ rest) =
      (initial :: (inner ++ ending)).length := by
  have outside : ∀ c ∈ (ending ++ rest).head?, Rule.isNameChar c = false := by
    rcases isEnding with rfl | rfl
    · exact fun c isHead => isNameChar_eq_false (clear c isHead)
    · intro c isHead
      obtain rfl : '?' = c := by simpa using isHead
      decide
  have run : (inner ++ (ending ++ rest)).takeWhile isNameChar = inner :=
    takeWhile_stretch areInner outside
  rw [List.cons_append, List.append_assoc, Rule.nameFrom, if_pos isFirst]
  dsimp only
  rw [run, List.drop_succ_cons, List.drop_left]
  rcases isEnding with rfl | rfl
  · split
    · rename_i others question
      have isMark : Text.isNameContinue '?' = false := clear '?' (by rw [← List.nil_append rest, question]; rfl)
      contradiction
    · simp
  · simp

theorem Rule.keyName_eq (taken : Rule.keyName before text ≠ 0) :
    Rule.keyName before text = Rule.plainName before text := by
  unfold Rule.keyName at taken ⊢
  dsimp only at taken ⊢
  split at taken
  · contradiction
  · rfl
  · contradiction

/-- Where no listed word is found, a text that begins with a letter is left to the rules for names. -/
theorem first_eq_names (isLetter : Tint.isLetter initial = true)
    (nothing : ∀ tint ∈ wordTints, Rule.words (listed tint) before (initial :: rest) = 0) :
    first before (initial :: rest) = firstOf before (initial :: rest) (rules.drop 14) := by
  have noMark : ∀ entry ∈ (rules.drop 11).take 3, entry.2 before (initial :: rest) = 0 := by
    intro entry member
    refine rule_eq_zero (List.mem_of_mem_drop (List.mem_of_mem_take member)) ?_
    rw [Bool.eq_false_iff]
    intro opens
    have continues := isNameContinue_of_isNameChar (isNameChar_of_isLetter isLetter)
    have isOperator : ∀ tint ∈ ((rules.drop 11).take 3).map Prod.fst, tint = .operator := by decide
    exact (opens_of_isNameContinue continues opens).2.2.1
      (isOperator entry.1 (List.mem_map_of_mem member))
  rw [first_letter isLetter]
  rw [firstOf_skip fun entry member => by
    obtain ⟨tint, isTint, rfl⟩ := List.mem_map.mp member
    exact nothing tint isTint]
  exact firstOf_skip noMark

/-- Where no listed word is found, a name of letters and digits, with a question mark behind them or
none, is one piece. -/
theorem first_name {inner ending : List Char} (isLetter : Tint.isLetter initial = true)
    (areInner : ∀ c ∈ inner, Rule.isNameChar c = true) (isEnding : ending = [] ∨ ending = ['?'])
    (clear : ∀ c ∈ rest.head?, Text.isNameContinue c = false) (nothing : ∀ tint ∈ wordTints,
      Rule.words (listed tint) before (initial :: (inner ++ ending) ++ rest) = 0) :
    ∃ tint, (tint = .className ∨ tint = .key ∨ tint = .name) ∧
      first before (initial :: (inner ++ ending) ++ rest) =
        (tint, (initial :: (inner ++ ending)).length) := by
  have width : ∀ first : Char → Bool, first initial = true →
      Rule.nameFrom first before (initial :: (inner ++ ending) ++ rest) =
        (initial :: (inner ++ ending)).length := fun first isFirst =>
    Rule.nameFrom_of_parts before isFirst areInner isEnding clear
  have start : first before (initial :: (inner ++ ending) ++ rest) =
      firstOf before (initial :: (inner ++ ending) ++ rest) (rules.drop 14) :=
    first_eq_names isLetter nothing
  rw [start]
  by_cases isUpper : initial.isUpper = true
  · refine ⟨.className, .inl rfl, ?_⟩
    rw [← width Char.isUpper isUpper]
    exact firstOf_cons (by rw [Rule.className, width _ isUpper]; simp)
  · have isPlain : (initial.isLower || initial == '_') = true := by
      simpa [Tint.isLetter, isUpper] using isLetter
    have plain : Rule.plainName before (initial :: (inner ++ ending) ++ rest) =
        (initial :: (inner ++ ending)).length := width _ isPlain
    have noClass : Rule.className before (initial :: (inner ++ ending) ++ rest) = 0 :=
      if_neg isUpper
    by_cases isKey : Rule.keyName before (initial :: (inner ++ ending) ++ rest) = 0
    · refine ⟨.name, .inr (.inr rfl), ?_⟩
      have neither : ∀ entry ∈ [(Tint.className, Rule.className), (Tint.key, Rule.keyName)],
          entry.2 before (initial :: (inner ++ ending) ++ rest) = 0 := by
        simp only [List.forall_mem_cons]
        exact ⟨noClass, isKey, List.forall_mem_nil _⟩
      have skipped : firstOf before (initial :: (inner ++ ending) ++ rest) (rules.drop 14) =
          firstOf before (initial :: (inner ++ ending) ++ rest) (rules.drop 16) :=
        firstOf_skip neither
      rw [skipped, ← plain]
      exact firstOf_cons (by rw [plain]; simp)
    · refine ⟨.key, .inr (.inl rfl), ?_⟩
      have only : ∀ entry ∈ [(Tint.className, Rule.className)],
          entry.2 before (initial :: (inner ++ ending) ++ rest) = 0 :=
        List.forall_mem_singleton.mpr noClass
      have skipped : firstOf before (initial :: (inner ++ ending) ++ rest) (rules.drop 14) =
          firstOf before (initial :: (inner ++ ending) ++ rest) (rules.drop 15) :=
        firstOf_skip only
      rw [skipped, ← plain, ← Rule.keyName_eq isKey]
      exact firstOf_cons isKey

/-! ## Names and reserved words -/

def isKeyword : Tint → Bool
  | .declaration | .wordOperator | .keyword | .constant => true
  | _ => false

def isName : Tint → Bool
  | .selfName | .className | .key | .name => true
  | _ => false

/-- Whether a name of the language is tinted as one name: it has ASCII letters and digits only, and at
most one question mark, at its end. With a question mark it must not be a listed word otherwise,
unless it stands directly behind a digit, where no word begins. -/
def paintsName (behindDigit : Bool) : List Char → Bool
  | [] => false
  | initial :: more =>
    isLetter initial &&
      match more.dropWhile Rule.isNameChar with
      | [] => true
      | ['?'] => behindDigit || !isListed (initial :: more.takeWhile Rule.isNameChar)
      | _ => false

theorem paintsName_iff {behindDigit : Bool} {name : List Char} :
    paintsName behindDigit name = true ↔
      ∃ initial inner ending, name = initial :: (inner ++ ending) ∧ isLetter initial = true ∧
        (∀ c ∈ inner, Rule.isNameChar c = true) ∧
          (ending = [] ∨
            ending = ['?'] ∧ (behindDigit = true ∨ isListed (initial :: inner) = false)) := by
  constructor
  · intro painted
    unfold paintsName at painted
    split at painted
    · contradiction
    · rename_i initial more
      rw [Bool.and_eq_true] at painted
      have parts : more.takeWhile Rule.isNameChar ++ more.dropWhile Rule.isNameChar = more :=
        List.takeWhile_append_dropWhile
      refine ⟨initial, more.takeWhile Rule.isNameChar, more.dropWhile Rule.isNameChar,
        by rw [parts], painted.1, List.all_eq_true.mp List.all_takeWhile, ?_⟩
      obtain ⟨-, ends⟩ := painted
      split at ends
      · rename_i empty
        exact .inl empty
      · rename_i question
        exact .inr ⟨question, by simpa using ends⟩
      · contradiction
  · rintro ⟨initial, inner, ending, rfl, isLetter, areInner, ends⟩
    have outside : ∀ c ∈ ending.head?, Rule.isNameChar c = false := by
      rcases ends with rfl | ⟨rfl, -⟩
      · simp
      · intro c isHead
        obtain rfl : '?' = c := by simpa using isHead
        decide
    have run := takeWhile_stretch areInner outside
    have left : (inner ++ ending).dropWhile Rule.isNameChar = ending := by
      rw [← drop_takeWhile, run, List.drop_left]
    rw [paintsName, run, left, isLetter, Bool.true_and]
    rcases ends with rfl | ⟨rfl, isFree⟩
    · rfl
    · simpa using isFree

theorem parts_of_isListed {word : List Char} (isListed : Tint.isListed word = true) :
    ∃ initial inner, word = initial :: inner ∧ isLetter initial = true ∧
      ∀ c ∈ inner, Rule.isNameChar c = true := by
  have checked : wordTints.all (fun tint => (listed tint).all fun word =>
      word.toList.head?.any isLetter && word.toList.all Rule.isNameChar) = true := by decide
  obtain ⟨tint, member, found⟩ := List.any_eq_true.mp isListed
  have holds := List.all_eq_true.mp (List.all_eq_true.mp checked tint member) _
    (List.contains_iff_mem.mp found)
  rw [String.toList_ofList, Bool.and_eq_true] at holds
  cases word with
  | nil => simp at holds
  | cons initial inner =>
    have inside := List.all_eq_true.mp holds.2
    exact ⟨initial, inner, rfl, holds.1, fun c member => inside c (List.mem_cons_of_mem _ member)⟩

/-- A listed word is a keyword if it is reserved, and a name otherwise. -/
theorem kind_of_listed (member : tint ∈ wordTints) (found : word ∈ listed tint) :
    if Kind.ofWord word = .name then tint.isName = true else tint.isKeyword = true := by
  have checked : ∀ tint ∈ wordTints, ∀ word ∈ listed tint,
      if Kind.ofWord word = .name then tint.isName = true else tint.isKeyword = true := by
    decide
  exact checked tint member word found

theorem isListed_of_reserved (reserved : Kind.ofWord word ≠ .name) :
    isListed word.toList = true := by
  have checked : Kind.reserved.all (fun entry => isListed entry.1.toList) = true := by decide
  unfold Kind.ofWord at reserved
  cases found : Kind.reserved.lookup word with
  | none =>
    rw [found] at reserved
    contradiction
  | some kind =>
    obtain ⟨front, back, same, -⟩ := List.lookup_eq_some_iff.mp found
    exact List.all_eq_true.mp checked (word, kind) (by simp [same])

theorem isName_of_name (isKind : tint = .className ∨ tint = .key ∨ tint = .name) :
    tint.isName = true := by
  rcases isKind with rfl | rfl | rfl <;> rfl

/-- The surroundings of a word in a text that is read without a fault: the word ends, and a word
character directly before it is a digit. -/
structure Surrounds (before : Option Char) (rest : List Char) : Prop where
  clear : ∀ c ∈ rest.head?, Text.isNameContinue c = false
  ends : ∀ c ∈ rest.head?, Text.isWordChar c = false
  fits : before.any Text.isWordChar = before.any Char.isDigit

section Words

variable {before : Option Char} {name rest : List Char}

/-- The letters and digits of a name stand at their boundaries, also before a question mark. -/
theorem Surrounds.bounded {initial : Char} {inner ending : List Char}
    (surrounds : Surrounds before rest) (isLetter : Tint.isLetter initial = true)
    (areInner : ∀ c ∈ inner, Rule.isNameChar c = true) (isEnding : ending = [] ∨ ending = ['?']) :
    Bounded (initial :: inner) (ending ++ rest) := by
  refine ⟨⟨initial, inner, rfl, isLetter⟩,
    List.forall_mem_cons.mpr ⟨isNameChar_of_isLetter isLetter, areInner⟩, ?_⟩
  rcases isEnding with rfl | rfl
  · exact surrounds.ends
  · intro c isHead
    obtain rfl : '?' = c := by simpa using isHead
    decide

theorem Surrounds.boundary {initial : Char} (surrounds : Surrounds before rest)
    (isLetter : Tint.isLetter initial = true) (others : List Char) :
    Rule.insideWord before (initial :: others).head? = before.any Char.isDigit := by
  have isWordChar := isWordChar_of_isNameChar (isNameChar_of_isLetter isLetter)
  simp [Rule.insideWord, isWordChar, surrounds.fits]

/-- A reserved word is one piece of a keyword, or of a name directly behind a digit. -/
theorem first_of_reserved (surrounds : Surrounds before rest)
    (reserved : Kind.ofWord (String.ofList name) ≠ .name) :
    ∃ tint, first before (name ++ rest) = (tint, name.length) ∧
      (if before.any Char.isDigit then tint.isName else tint.isKeyword) = true := by
  have isListed := isListed_of_reserved reserved
  rw [String.toList_ofList] at isListed
  obtain ⟨initial, inner, rfl, isLetter, areInner⟩ := parts_of_isListed isListed
  have bounded := surrounds.bounded isLetter areInner (.inl rfl)
  by_cases isBehind : before.any Char.isDigit = true
  · have nothing : ∀ tint ∈ wordTints,
        Rule.words (Tint.listed tint) before (initial :: (inner ++ []) ++ rest) = 0 := by
      intro tint _
      apply Rule.words_eq_zero
      rw [List.cons_append, surrounds.boundary isLetter, isBehind]
    obtain ⟨tint, isKind, same⟩ := first_name isLetter areInner (.inl rfl) surrounds.clear nothing
    rw [List.append_nil] at same
    exact ⟨tint, same, by rw [if_pos isBehind]; exact isName_of_name isKind⟩
  · have free : Rule.insideWord before (initial :: inner ++ rest).head? = false := by
      rw [List.cons_append, surrounds.boundary isLetter]
      exact Bool.eq_false_iff.mpr isBehind
    obtain ⟨tint, member, found, same⟩ := first_listed bounded free isListed
    have isKind := kind_of_listed member found
    rw [if_neg reserved] at isKind
    exact ⟨tint, same, by rw [if_neg isBehind]; exact isKind⟩

theorem first_of_painted (surrounds : Surrounds before rest)
    (isName : Kind.ofWord (String.ofList name) = .name)
    (painted : paintsName (before.any Char.isDigit) name = true) :
    ∃ tint, first before (name ++ rest) = (tint, name.length) ∧ tint.isName = true := by
  obtain ⟨initial, inner, ending, rfl, isLetter, areInner, ends⟩ := paintsName_iff.mp painted
  have isEnding : ending = [] ∨ ending = ['?'] := ends.imp_right And.left
  have bounded := surrounds.bounded isLetter areInner isEnding
  have text : initial :: (inner ++ ending) ++ rest = initial :: inner ++ (ending ++ rest) := by
    simp
  have boundary := surrounds.boundary isLetter (inner ++ (ending ++ rest))
  rw [← List.cons_append] at boundary
  -- Either no listed word begins here, or the whole name is a listed word that is not reserved.
  by_cases found : before.any Char.isDigit = false ∧ isListed (initial :: inner) = true
  · obtain ⟨isFree, listed⟩ := found
    have noMark : ending = [] := by
      rcases ends with empty | ⟨-, isBehind | unlisted⟩
      · exact empty
      · rw [isBehind] at isFree
        contradiction
      · rw [unlisted] at listed
        contradiction
    subst noMark
    rw [isFree] at boundary
    obtain ⟨tint, member, isListed, same⟩ := first_listed bounded boundary listed
    have isKind := kind_of_listed member isListed
    rw [List.append_nil] at isName ⊢
    rw [if_pos isName] at isKind
    exact ⟨tint, same, isKind⟩
  · have nothing : ∀ tint ∈ wordTints,
        Rule.words (listed tint) before (initial :: (inner ++ ending) ++ rest) = 0 := by
      intro tint member
      rw [text]
      cases isBehind : before.any Char.isDigit with
      | true => exact Rule.words_eq_zero _ (by rw [boundary, isBehind])
      | false =>
        rw [Rule.words_eq tint bounded (by rw [boundary, isBehind]), if_neg]
        intro isListed
        exact found ⟨isBehind, List.any_eq_true.mpr
          ⟨tint, member, List.contains_iff_mem.mpr isListed⟩⟩
    obtain ⟨tint, isKind, same⟩ := first_name isLetter areInner isEnding surrounds.clear nothing
    exact ⟨tint, same, isName_of_name isKind⟩

theorem painted_of_first (surrounds : Surrounds before rest) (filled : name ≠ [])
    (isName : (first before (name ++ rest)).1.isName = true)
    (width : (first before (name ++ rest)).2 = name.length) :
    paintsName (before.any Char.isDigit) name = true := by
  obtain ⟨stretch, leads, length, isStretch⟩ :=
    first_stretch before (List.append_ne_nil_of_left_ne_nil filled rest)
  have same : stretch = name :=
    (List.prefix_of_prefix_length_le leads (List.prefix_append name rest) (by omega)).eq_of_length
      (by omega)
  subst same
  rw [paintsName_iff]
  generalize kind : (first before (stretch ++ rest)).1 = tint at isStretch isName
  cases isStretch with
  | word isListed =>
    rename_i word
    have selfOnly : ∀ tint ∈ [Tint.selfName, .className, .key, .name], ∀ word ∈ listed tint,
        word = "self" := by decide
    have isSelf : word = "self" := by
      refine selfOnly tint ?_ word isListed
      revert isName
      cases tint <;> decide
    subst isSelf
    have areInner : ['e', 'l', 'f'].all Rule.isNameChar = true := by decide
    exact ⟨'s', ['e', 'l', 'f'], [], rfl, by decide, List.all_eq_true.mp areInner, .inl rfl⟩
  | name isKind starts areInner isEnding =>
    rename_i initial inner ending
    refine ⟨initial, inner, ending, rfl, starts, areInner, ?_⟩
    rcases isEnding with rfl | rfl
    · exact .inl rfl
    · right
      refine ⟨rfl, ?_⟩
      by_cases isBehind : before.any Char.isDigit = true
      · exact .inl isBehind
      · right
        rw [Bool.eq_false_iff]
        intro listed
        have bounded := surrounds.bounded starts areInner (.inr rfl)
        have boundary := surrounds.boundary starts (inner ++ (['?'] ++ rest))
        rw [Bool.eq_false_iff.mpr isBehind, ← List.cons_append] at boundary
        obtain ⟨tint, -, -, same⟩ := first_listed bounded boundary listed
        have text : initial :: (inner ++ ['?']) ++ rest = initial :: inner ++ (['?'] ++ rest) := by
          simp
        rw [text, same] at width
        simp at width
  | number isNumber => rcases isNumber with rfl | rfl <;> contradiction
  | symbol isSymbol => rcases isSymbol with rfl | rfl <;> contradiction
  | _ => contradiction

end Words

end Parlance.Tint
