import Parlance.Proofs.Token.Following
import Parlance.Tint

/-!
Contract: what the rules of a tinted text take.

Every rule takes a stretch at the front of a text, and what the stretch looks like is told by the
class that it gets. Owns: the classes of characters as far as rules and names share them, the
stretches of each class (`Tint.Stretch`), and that the first piece of a text is one of them
(`Tint.first_stretch`). Does not own: which pieces a text is cut into.
-/

namespace Parlance

variable {c : Char} {tint : Tint}

/-! ## Classes of characters -/

namespace Text

/-- All code points of a set, if its stripes begin at the given one. -/
def Stripes.codes (start : Nat) : Stripes → List Nat
  | skipped :: taken :: rest =>
    List.range' (start + skipped) taken ++ codes (start + (skipped + taken)) rest
  | _ => []

theorem Stripes.mem_codes {stripes : Stripes} {n : Nat} (start : Nat)
    (inside : stripes.contains n = true) :
    start + n ∈ stripes.codes start := by
  fun_induction contains stripes n generalizing start with
  | case1 | case4 => contradiction
  | case2 skipped taken rest n isBehind isInside =>
    rw [codes, List.mem_append, List.mem_range'_1]
    omega
  | case3 skipped taken rest n isBehind isFurther ih =>
    have found := ih (start + (skipped + taken)) inside
    rw [codes, List.mem_append]
    right
    rwa [show start + n = start + (skipped + taken) + (n - (skipped + taken)) by omega]

/-- What is checked for every code point of a set holds of its characters. -/
theorem of_codes {stripes : Stripes} (holds : Char → Bool)
    (checked : (stripes.codes 0).all (fun n => holds (Char.ofNat n)) = true)
    (inside : stripes.contains c.toNat = true) : holds c = true := by
  have found := List.all_eq_true.mp checked (0 + c.toNat) (Stripes.mem_codes 0 inside)
  rwa [Nat.zero_add, Char.ofNat_toNat] at found

theorem isNameContinue_of_isBlank (isBlank : Text.isBlank c = true) : isNameContinue c = false := by
  have outside : (blankStripes.codes 0).all (fun n => !isNameContinue (Char.ofNat n)) = true := by
    decide +kernel
  have apart := of_codes (fun c => !isNameContinue c) outside isBlank
  rwa [Bool.not_eq_true'] at apart

theorem isBlank_eq_false (continues : isNameContinue c = true) : isBlank c = false := by
  rw [Bool.eq_false_iff]
  intro isBlank
  rw [isNameContinue_of_isBlank isBlank] at continues
  contradiction

end Text

namespace Tint

/-- The characters that names of an editor begin with. -/
def isLetter (c : Char) : Bool :=
  c.isUpper || c.isLower || c == '_'

theorem isLetter_of_plain (isPlain : (c.isLower || c == '_') = true) : isLetter c = true := by
  rw [isLetter, Bool.or_assoc, isPlain, Bool.or_true]

/-- The code points of ASCII letters, digits and the underscore. -/
def nameCharStripes : Text.Stripes := [48, 10, 7, 26, 4, 1, 1, 26]

theorem contains_of_isNameChar (isNameChar : Rule.isNameChar c = true) :
    nameCharStripes.contains c.toNat = true := by
  have inside : (48 ≤ c.toNat ∧ c.toNat ≤ 57) ∨ (65 ≤ c.toNat ∧ c.toNat ≤ 90) ∨
      c.toNat = 95 ∨ 97 ≤ c.toNat ∧ c.toNat ≤ 122 := by
    have classes : (decide (65 ≤ c.val ∧ c.val ≤ 90) || (97 ≤ c.val && c.val ≤ 122) ||
        c.isDigit || c == '_') = true := isNameChar
    simp only [Bool.or_eq_true, Bool.and_eq_true, decide_eq_true_eq, beq_iff_eq,
      UInt32.le_iff_toNat_le] at classes
    rcases classes with ((isUpper | isLower) | isDigit) | rfl
    · exact .inr (.inl isUpper)
    · exact .inr (.inr (.inr isLower))
    · exact .inl (Text.bounds_of_isDigit isDigit)
    · exact .inr (.inr (.inl rfl))
  unfold nameCharStripes
  simp only [Text.Stripes.contains]
  repeat' split
  all_goals first | rfl | omega

theorem isNameContinue_of_isNameChar (isNameChar : Rule.isNameChar c = true) :
    Text.isNameContinue c = true :=
  Text.of_codes Text.isNameContinue (by decide +kernel) (contains_of_isNameChar isNameChar)

theorem isWordChar_of_isNameChar (isNameChar : Rule.isNameChar c = true) :
    Text.isWordChar c = true :=
  Text.of_codes Text.isWordChar (by decide +kernel) (contains_of_isNameChar isNameChar)

theorem isNameChar_of_isLetter (isLetter : Tint.isLetter c = true) : Rule.isNameChar c = true := by
  rw [Tint.isLetter, Bool.or_eq_true] at isLetter
  show (c.isUpper || c.isLower || c.isDigit || c == '_') = true
  rcases isLetter with isAlpha | isUnderscore
  · rw [isAlpha]
    rfl
  · rw [isUnderscore, Bool.or_true]

theorem isNameStart_of_isLetter (isLetter : Tint.isLetter c = true) :
    Text.isNameStart c = true := by
  have either := Text.of_codes (fun c => !Tint.isLetter c || Text.isNameStart c) (by decide +kernel)
    (contains_of_isNameChar (isNameChar_of_isLetter isLetter))
  simpa [isLetter] using either

/-! ## The first rule that matches -/

variable {before : Option Char} {text : List Char}

theorem firstOf_skip {front back : List (Tint × Rule)}
    (nothing : ∀ entry ∈ front, entry.2 before text = 0) :
    firstOf before text (front ++ back) = firstOf before text back := by
  induction front with
  | nil => rfl
  | cons entry front ih =>
    rw [List.cons_append, firstOf, nothing entry List.mem_cons_self]
    exact ih fun other member => nothing other (List.mem_cons_of_mem entry member)

theorem firstOf_cons {rule : Rule} {back : List (Tint × Rule)} (taken : rule before text ≠ 0) :
    firstOf before text ((tint, rule) :: back) = (tint, rule before text) := by
  rw [firstOf]
  cases length : rule before text with
  | zero => contradiction
  | succ length => rfl

/-- The first piece comes from a rule that matches, or no rule does. -/
theorem firstOf_cases (before : Option Char) (text : List Char) (entries : List (Tint × Rule)) :
    (∃ entry ∈ entries, entry.2 before text ≠ 0 ∧
        firstOf before text entries = (entry.1, entry.2 before text)) ∨
      (∀ entry ∈ entries, entry.2 before text = 0) ∧
        firstOf before text entries = (.error, 1) := by
  induction entries with
  | nil => exact .inr ⟨by simp, rfl⟩
  | cons entry entries ih =>
    by_cases taken : entry.2 before text = 0
    · have skipped : firstOf before text ([entry] ++ entries) = firstOf before text entries :=
        firstOf_skip (by simpa using taken)
      rw [List.singleton_append] at skipped
      rw [skipped]
      rcases ih with ⟨other, member, isTaken, same⟩ | ⟨nothing, same⟩
      · exact .inl ⟨other, List.mem_cons_of_mem entry member, isTaken, same⟩
      · exact .inr ⟨List.forall_mem_cons.mpr ⟨taken, nothing⟩, same⟩
    · exact .inl ⟨entry, List.mem_cons_self, taken, firstOf_cons taken⟩

/-! ## Stretches -/

def listed : Tint → List String
  | .declaration => ["class", "def", "fn", "use"]
  | .wordOperator => ["and", "or", "not"]
  | .keyword => ["if", "then", "else", "end", "for", "in", "while", "do", "break", "continue",
      "return"]
  | .constant => ["true", "false", "nil"]
  | .selfName => ["self"]
  | _ => []

/-- What the stretches of a class look like. -/
inductive Stretch : Tint → List Char → Prop where
  | blank {first : Char} {more : List Char} (isBlank : Text.isBlank first = true)
      (areBlank : ∀ c ∈ more, Text.isBlank c = true) :
      Stretch .blank (first :: more)
  | comment {body : List Char} :
      Stretch .comment ('#' :: body)
  | doubleString {body : List Char} :
      Stretch .doubleString ('\x22' :: body)
  | singleString {body : List Char} :
      Stretch .singleString ('\x27' :: body)
  | number {tint : Tint} {first : Char} {more : List Char}
      (isNumber : tint = .decimal ∨ tint = .whole) (isDigit : first.isDigit = true)
      (plain : ∀ c ∈ more, c = '.' ∨ c.isDigit = true) :
      Stretch tint (first :: more)
  | word {tint : Tint} {word : String} (isListed : word ∈ listed tint) :
      Stretch tint word.toList
  | name {tint : Tint} {first : Char} {inner ending : List Char}
      (isName : tint = .className ∨ tint = .key ∨ tint = .name) (starts : isLetter first = true)
      (areInner : ∀ c ∈ inner, Rule.isNameChar c = true) (isEnding : ending = [] ∨ ending = ['?']) :
      Stretch tint (first :: (inner ++ ending))
  | symbol {tint : Tint} {mark : Symbol} (isSymbol : tint = .operator ∨ tint = .punctuation) :
      Stretch tint mark.spelling.toList
  | error {c : Char} :
      Stretch .error [c]

/-- A rule takes stretches of a class from the front of a text. -/
def Rule.Takes (rule : Rule) (tint : Tint) : Prop :=
  ∀ before text, rule before text ≠ 0 →
    ∃ stretch, stretch <+: text ∧ rule before text = stretch.length ∧ Stretch tint stretch

namespace Rule

theorem blank_takes : Rule.blank.Takes .blank := by
  intro before text taken
  refine ⟨text.takeWhile Text.isBlank, List.takeWhile_prefix Text.isBlank, rfl, ?_⟩
  have areBlank : ∀ c ∈ text.takeWhile Text.isBlank, Text.isBlank c = true :=
    List.all_eq_true.mp List.all_takeWhile
  cases stretch : text.takeWhile Text.isBlank with
  | nil => exact absurd (congrArg List.length stretch) taken
  | cons first more =>
    rw [stretch] at areBlank
    exact .blank (areBlank first List.mem_cons_self)
      fun c member => areBlank c (List.mem_cons_of_mem first member)

theorem comment_takes : Rule.comment.Takes .comment := by
  intro before text taken
  unfold Rule.comment at taken ⊢
  split at taken
  · rename_i rest
    refine ⟨'#' :: rest.takeWhile (· != '\n'), ?_, rfl, .comment⟩
    exact List.cons_prefix_cons.mpr ⟨rfl, List.takeWhile_prefix _⟩
  · contradiction

theorem string_takes {quote : Char} (opens : ∀ body, Stretch tint (quote :: body)) :
    (Rule.string quote).Takes tint := by
  intro before text taken
  unfold Rule.string at taken ⊢
  split at taken
  · rename_i first rest
    split at taken
    · rename_i isQuote
      dsimp only at taken ⊢
      split at taken
      · rename_i closes
        rw [if_pos isQuote, if_pos closes, beq_iff_eq.mp isQuote]
        refine ⟨quote :: rest.take ((rest.takeWhile (· != quote)).length + 1),
          List.cons_prefix_cons.mpr ⟨rfl, List.take_prefix _ _⟩, ?_, opens _⟩
        rw [List.length_cons, List.length_take, Nat.min_eq_left closes]
      · contradiction
    · contradiction
  · contradiction

theorem whole_takes : Rule.whole.Takes .whole := by
  intro before text taken
  unfold Rule.whole at taken ⊢
  split at taken
  · rename_i rest
    exact ⟨['0'], ⟨rest, rfl⟩, rfl, .number (.inr rfl) rfl (by simp)⟩
  · have areDigits := Parlance.Piece.takeWhile_digits text
    refine ⟨text.takeWhile Char.isDigit, List.takeWhile_prefix Char.isDigit, rfl, ?_⟩
    cases stretch : text.takeWhile Char.isDigit with
    | nil => exact absurd (congrArg List.length stretch) taken
    | cons first more =>
      rw [stretch] at areDigits
      exact .number (.inr rfl) (areDigits first List.mem_cons_self)
        fun c member => .inr (areDigits c (List.mem_cons_of_mem first member))

/-- A decimal number is a whole number, a point and digits. -/
theorem decimal_eq {before : Option Char} {text : List Char}
    (taken : Rule.decimal before text ≠ 0) :
    Rule.whole before text ≠ 0 ∧ ∃ rest, text.drop (Rule.whole before text) = '.' :: rest ∧
      rest.takeWhile Char.isDigit ≠ [] ∧
        Rule.decimal before text =
          Rule.whole before text + 1 + (rest.takeWhile Char.isDigit).length := by
  unfold Rule.decimal at taken ⊢
  split at taken
  · contradiction
  · rename_i filled
    split at taken
    · rename_i rest point
      split at taken
      · contradiction
      · rename_i some
        exact ⟨filled, rest, point, fun empty => some (by rw [empty]; rfl), rfl⟩
    · contradiction

theorem decimal_takes : Rule.decimal.Takes .decimal := by
  intro before text taken
  obtain ⟨filled, rest, point, -, same⟩ := decimal_eq taken
  obtain ⟨digits, leads, length, isStretch⟩ := whole_takes before text filled
  obtain ⟨others, rfl⟩ := leads
  rw [length, List.drop_left] at point
  subst point
  refine ⟨digits ++ '.' :: rest.takeWhile Char.isDigit, ?_, ?_, ?_⟩
  · rw [List.prefix_append_right_inj, List.cons_prefix_cons]
    exact ⟨rfl, List.takeWhile_prefix Char.isDigit⟩
  · rw [same, length, List.length_append, List.length_cons]
    omega
  · cases isStretch with
    | number _ isDigit plain =>
      refine .number (.inl rfl) isDigit fun c member => ?_
      rcases List.mem_append.mp member with member | member
      · exact plain c member
      rcases List.mem_cons.mp member with rfl | member
      · exact .inl rfl
      · exact .inr (Parlance.Piece.takeWhile_digits rest c member)
    | word isListed => cases isListed
    | name isName => simp at isName
    | symbol isSymbol => simp at isSymbol

theorem words_takes {words : List String} (areListed : words = listed tint) :
    (Rule.words words).Takes tint := by
  intro before text taken
  unfold Rule.words at taken ⊢
  split at taken
  · contradiction
  · rename_i outside
    rw [if_neg outside]
    split at taken
    · rename_i word found
      have stands := List.find?_some found
      rw [Bool.and_eq_true] at stands
      refine ⟨word.toList, List.isPrefixOf_iff_prefix.mp stands.1, rfl, .word ?_⟩
      rw [← areListed]
      exact List.mem_of_find?_eq_some found
    · contradiction

theorem spellings_takes {spellings : List String}
    (isSymbol : tint = .operator ∨ tint = .punctuation)
    (areSymbols : ∀ spelling ∈ spellings, ∃ mark : Symbol, spelling = mark.spelling) :
    (Rule.spellings spellings).Takes tint := by
  intro before text taken
  unfold Rule.spellings at taken ⊢
  split at taken
  · rename_i spelling found
    have stands := List.find?_some found
    obtain ⟨mark, rfl⟩ := areSymbols spelling (List.mem_of_find?_eq_some found)
    exact ⟨mark.spelling.toList, List.isPrefixOf_iff_prefix.mp stands, rfl, .symbol isSymbol⟩
  · contradiction

/-- The length of a name is that of its letters and of the question mark behind them. -/
theorem nameFrom_eq {first : Char → Bool} (before : Option Char) (rest : List Char)
    (isFirst : first c = true) :
    ∃ ending, (ending = [] ∨ ending = ['?']) ∧
      (c :: (rest.takeWhile isNameChar ++ ending)) <+: c :: rest ∧
        Rule.nameFrom first before (c :: rest) =
          (c :: (rest.takeWhile isNameChar ++ ending)).length := by
  have parts : rest.takeWhile isNameChar ++ rest.dropWhile isNameChar = rest :=
    List.takeWhile_append_dropWhile
  unfold Rule.nameFrom
  dsimp only
  rw [if_pos isFirst, List.drop_succ_cons, drop_takeWhile]
  split
  · rename_i others question
    rw [question] at parts
    refine ⟨['?'], .inr rfl, ⟨others, ?_⟩, by simp⟩
    rw [List.cons_append, List.append_assoc, List.singleton_append, parts]
  · refine ⟨[], .inl rfl, ?_, by simp⟩
    rw [List.append_nil]
    exact List.cons_prefix_cons.mpr ⟨rfl, List.takeWhile_prefix isNameChar⟩

theorem nameFrom_takes {first : Char → Bool}
    (isName : tint = .className ∨ tint = .key ∨ tint = .name)
    (areLetters : ∀ c, first c = true → isLetter c = true) : (Rule.nameFrom first).Takes tint := by
  intro before text taken
  cases text with
  | nil => contradiction
  | cons c rest =>
    by_cases isFirst : first c = true
    · obtain ⟨ending, isEnding, leads, width⟩ := nameFrom_eq before rest isFirst
      exact ⟨_, leads, width, .name isName (areLetters c isFirst)
        (List.all_eq_true.mp List.all_takeWhile) isEnding⟩
    · rw [Rule.nameFrom, if_neg isFirst] at taken
      contradiction

theorem keyName_takes : Rule.keyName.Takes .key := by
  intro before text taken
  unfold Rule.keyName at taken ⊢
  dsimp only at taken ⊢
  split at taken
  · contradiction
  · exact nameFrom_takes (.inr (.inl rfl)) (fun _ => isLetter_of_plain) before text taken
  · contradiction

end Rule

/-- Every rule takes stretches of its class. -/
theorem rules_take : ∀ entry ∈ rules, entry.2.Takes entry.1 := by
  have areSymbols : ∀ spellings : List String,
      spellings.all (fun spelling => Symbol.all.any fun mark => spelling == mark.spelling) = true →
        ∀ spelling ∈ spellings, ∃ mark : Symbol, spelling = mark.spelling := by
    intro spellings checked spelling member
    obtain ⟨mark, -, same⟩ := List.any_eq_true.mp (List.all_eq_true.mp checked spelling member)
    exact ⟨mark, beq_iff_eq.mp same⟩
  simp only [rules, List.forall_mem_cons]
  refine ⟨Rule.blank_takes, Rule.comment_takes, Rule.string_takes fun _ => .doubleString,
    Rule.string_takes fun _ => .singleString, Rule.decimal_takes, Rule.whole_takes,
    Rule.words_takes rfl, Rule.words_takes rfl, Rule.words_takes rfl, Rule.words_takes rfl,
    Rule.words_takes rfl, Rule.spellings_takes (.inl rfl) (areSymbols _ (by decide)),
    Rule.spellings_takes (.inl rfl) (areSymbols _ (by decide)),
    Rule.spellings_takes (.inl rfl) (areSymbols _ (by decide)),
    Rule.nameFrom_takes (.inl rfl) (by simp +contextual [isLetter]), Rule.keyName_takes,
    Rule.nameFrom_takes (.inr (.inr rfl)) (fun _ => isLetter_of_plain),
    Rule.spellings_takes (.inr rfl) (areSymbols _ (by decide)), by simp⟩

theorem first_stretch (before : Option Char) {text : List Char} (filled : text ≠ []) :
    ∃ stretch, stretch <+: text ∧ (first before text).2 = stretch.length ∧
      Stretch (first before text).1 stretch := by
  rcases firstOf_cases before text rules with ⟨entry, member, taken, same⟩ | ⟨-, same⟩
  · have takes := rules_take entry member before text taken
    rw [first, same]
    exact takes
  · obtain ⟨c, rest, rfl⟩ := List.exists_cons_of_ne_nil filled
    rw [first, same]
    exact ⟨[c], ⟨rest, rfl⟩, rfl, .error⟩

/-- A character is an error only where no rule matches. -/
theorem first_error {before : Option Char} {text : List Char}
    (isError : (first before text).1 = .error) :
    ∀ entry ∈ rules, entry.2 before text = 0 := by
  rcases firstOf_cases before text rules with ⟨entry, member, -, same⟩ | ⟨nothing, -⟩
  · have noError : ∀ tint ∈ rules.map Prod.fst, tint ≠ .error := by decide
    rw [first, same] at isError
    exact absurd isError (noError entry.1 (List.mem_map_of_mem member))
  · exact nothing

/-! ## First characters -/

/-- The characters that a stretch of a class may begin with. -/
def opens : Tint → Char → Bool
  | .blank, c => Text.isBlank c
  | .comment, c => c == '#'
  | .doubleString, c => c == '\x22'
  | .singleString, c => c == '\x27'
  | .decimal, c | .whole, c => c.isDigit
  | .operator, c | .punctuation, c => Symbol.all.any fun mark => mark.spelling.toList.head? == some c
  | .error, _ => true
  | _, c => isLetter c

theorem Stretch.opens {more : List Char} (stretch : Stretch tint (c :: more)) :
    tint.opens c = true := by
  generalize same : c :: more = text at stretch
  cases stretch with
  | blank isBlank =>
    obtain ⟨rfl, -⟩ := List.cons.inj same
    exact isBlank
  | comment | doubleString | singleString =>
    obtain ⟨rfl, -⟩ := List.cons.inj same
    rfl
  | number isNumber isDigit =>
    obtain ⟨rfl, -⟩ := List.cons.inj same
    rcases isNumber with rfl | rfl <;> exact isDigit
  | word isListed =>
    rename_i word
    have letters : (listed tint).all (fun word => word.toList.head?.all isLetter) = true := by
      cases tint <;> decide
    have isFirst : isLetter c = true := by
      have initial := List.all_eq_true.mp letters word isListed
      rwa [← same] at initial
    cases tint <;> first | exact isFirst | cases isListed
  | name isName starts =>
    obtain ⟨rfl, -⟩ := List.cons.inj same
    rcases isName with rfl | rfl | rfl <;> exact starts
  | symbol isSymbol =>
    rename_i mark
    have isFirst : (Symbol.all.any fun other => other.spelling.toList.head? == some c) = true := by
      refine List.any_eq_true.mpr ⟨mark, by cases mark <;> decide, ?_⟩
      rw [← same]
      simp
    rcases isSymbol with rfl | rfl <;> exact isFirst
  | error => rfl

/-- A rule does not match where no stretch of its class begins. -/
theorem rule_eq_zero {entry : Tint × Rule} {before : Option Char} {rest : List Char}
    (member : entry ∈ rules) (closed : entry.1.opens c = false) :
    entry.2 before (c :: rest) = 0 := by
  by_cases taken : entry.2 before (c :: rest) = 0
  · exact taken
  · obtain ⟨stretch, leads, length, isStretch⟩ := rules_take entry member before (c :: rest) taken
    cases stretch with
    | nil => exact length
    | cons d more =>
      obtain ⟨rfl, -⟩ := List.cons_prefix_cons.mp leads
      rw [isStretch.opens] at closed
      contradiction

theorem first_drop {before : Option Char} {rest : List Char} (count : Nat)
    (closed : ∀ tint ∈ (rules.take count).map Prod.fst, tint.opens c = false) :
    first before (c :: rest) = firstOf before (c :: rest) (rules.drop count) := by
  have nothing : ∀ entry ∈ rules.take count, entry.2 before (c :: rest) = 0 := by
    intro entry member
    exact rule_eq_zero (List.mem_of_mem_take member) (closed entry.1 (List.mem_map_of_mem member))
  calc
    first before (c :: rest) =
        firstOf before (c :: rest) (rules.take count ++ rules.drop count) := by
      rw [List.take_append_drop, first]
    _ = firstOf before (c :: rest) (rules.drop count) := firstOf_skip nothing

end Tint

end Parlance
