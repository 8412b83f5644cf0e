import Mathlib.Tactic.IntervalCases
import Parlance.Proofs.Token.Greedy

/-!
Contract: the longest number, word and symbol at the front of a text.

Owns: that the stretches which are read from a digit, from a sign, from a letter and from a mark are
the longest of their class (`Greedy.longest_number`, `Greedy.longest_word`,
`Greedy.longest_symbol`). Does not own: the order in which the classes are tried.
-/

namespace Parlance.Greedy

open RegularExpression

variable {first : Char} {text rest : List Char} {signed : Bool}

/-! ## Numbers -/

theorem oneOf_rmatch_iff {chars text : List Char} :
    (oneOf chars).rmatch text = true ↔ ∃ c ∈ chars, text = [c] := by
  induction chars with
  | nil =>
    have nothing : (oneOf []).rmatch text = false := zero_rmatch text
    simp [nothing]
  | cons c chars ih =>
    have either : (oneOf (c :: chars)).rmatch text = true ↔
        (char c).rmatch text = true ∨ (oneOf chars).rmatch text = true :=
      add_rmatch_iff (char c) (oneOf chars) text
    rw [either, char_rmatch_iff, ih]
    simp

theorem isDigit_iff_mem (c : Char) :
    c.isDigit = true ↔ c ∈ ['0', '1', '2', '3', '4', '5', '6', '7', '8', '9'] := by
  constructor
  · intro isDigit
    obtain ⟨low, high⟩ := Text.bounds_of_isDigit isDigit
    have code : c = Char.ofNat c.toNat := (Char.ofNat_toNat c).symm
    generalize c.toNat = n at low high code
    subst code
    interval_cases n <;> decide
  · intro member
    have digits : ['0', '1', '2', '3', '4', '5', '6', '7', '8', '9'].all Char.isDigit = true := by
      decide
    exact List.all_eq_true.mp digits c member

theorem digit_rmatch_iff {text : List Char} :
    digit.rmatch text = true ↔ ∃ c, c.isDigit = true ∧ text = [c] := by
  rw [digit, oneOf_rmatch_iff]
  simp only [isDigit_iff_mem]

theorem digits_rmatch_iff {text : List Char} :
    (star digit).rmatch text = true ↔ ∀ c ∈ text, c.isDigit = true := by
  rw [star_rmatch_iff]
  constructor
  · rintro ⟨parts, rfl, areDigits⟩ c member
    obtain ⟨part, inParts, inPart⟩ := List.mem_flatten.mp member
    obtain ⟨d, isDigit, rfl⟩ := digit_rmatch_iff.mp (areDigits part inParts).2
    rw [List.mem_singleton.mp inPart]
    exact isDigit
  · intro areDigits
    refine ⟨text.map fun c => [c], ?_, ?_⟩
    · rw [← List.flatMap_def, List.flatMap_singleton']
    · intro part member
      obtain ⟨c, inText, rfl⟩ := List.mem_map.mp member
      exact ⟨List.cons_ne_nil c [], digit_rmatch_iff.mpr ⟨c, areDigits c inText, rfl⟩⟩

/-- The integer part of a numeral: digits, of which the first is no zero unless it is alone. -/
theorem whole_rmatch_iff {text : List Char} :
    (char '0' + oneOf ['1', '2', '3', '4', '5', '6', '7', '8', '9'] * star digit).rmatch text =
        true ↔
      ∃ first whole, text = first :: whole ∧ first.isDigit = true ∧
        (∀ c ∈ whole, c.isDigit = true) ∧ (first = '0' → whole = []) := by
  rw [add_rmatch_iff, char_rmatch_iff, mul_rmatch_iff]
  constructor
  · rintro (rfl | ⟨front, whole, rfl, isFirst, areDigits⟩)
    · exact ⟨'0', [], rfl, rfl, by simp, fun _ => rfl⟩
    · obtain ⟨first, member, rfl⟩ := oneOf_rmatch_iff.mp isFirst
      have notZero : first ≠ '0' := by
        rintro rfl
        revert member
        decide
      exact ⟨first, whole, rfl, (isDigit_iff_mem first).mpr (List.mem_cons_of_mem '0' member),
        digits_rmatch_iff.mp areDigits, fun isZero => absurd isZero notZero⟩
  · rintro ⟨first, whole, rfl, isDigit, areDigits, noZero⟩
    by_cases zero : first = '0'
    · left
      rw [zero, noZero zero]
    · right
      have member : first ∈ ['1', '2', '3', '4', '5', '6', '7', '8', '9'] :=
        List.mem_of_ne_of_mem zero ((isDigit_iff_mem first).mp isDigit)
      exact ⟨[first], whole, rfl, oneOf_rmatch_iff.mpr ⟨first, member, rfl⟩,
        digits_rmatch_iff.mpr areDigits⟩

theorem fraction_rmatch_iff {text : List Char} :
    (1 + char '.' * (digit * star digit)).rmatch text = true ↔ Fraction text := by
  rw [add_rmatch_iff, one_rmatch_iff, mul_rmatch_iff]
  constructor
  · rintro (rfl | ⟨point, others, rfl, isPoint, areDigits⟩)
    · exact .none
    · obtain ⟨front, more, rfl, isFirst, areMore⟩ := (mul_rmatch_iff _ _ _).mp areDigits
      obtain ⟨d, isDigit, rfl⟩ := digit_rmatch_iff.mp isFirst
      rw [(char_rmatch_iff _ _).mp isPoint]
      exact .some isDigit (digits_rmatch_iff.mp areMore)
  · intro isFraction
    cases isFraction with
    | none => exact .inl rfl
    | some isDigit areDigits =>
      rename_i d more
      right
      refine ⟨['.'], d :: more, rfl, (char_rmatch_iff _ _).mpr rfl, ?_⟩
      exact (mul_rmatch_iff _ _ _).mpr ⟨[d], more, rfl, digit_rmatch_iff.mpr ⟨d, isDigit, rfl⟩,
        digits_rmatch_iff.mpr areDigits⟩

theorem numeral_rmatch_iff {text : List Char} : numeral.rmatch text = true ↔ Numeral text := by
  rw [numeral, mul_rmatch_iff]
  constructor
  · rintro ⟨front, fraction, rfl, isWhole, isFraction⟩
    obtain ⟨first, whole, rfl, isDigit, areDigits, noZero⟩ := whole_rmatch_iff.mp isWhole
    exact .mk isDigit areDigits noZero (fraction_rmatch_iff.mp isFraction)
  · intro numeral
    cases numeral with
    | mk isDigit areDigits noZero isFraction =>
      rename_i first whole fraction
      exact ⟨first :: whole, fraction, rfl,
        whole_rmatch_iff.mpr ⟨first, whole, rfl, isDigit, areDigits, noZero⟩,
        fraction_rmatch_iff.mpr isFraction⟩

theorem isNumber_iff {text : List Char} :
    isNumber signed text = true ↔
      ∃ sign body, text = sign ++ body ∧ (sign = [] ∨ sign = ['-'] ∧ signed = true) ∧
        Numeral body := by
  unfold isNumber
  constructor
  · intro isNumber
    split at isNumber
    · rename_i isSigned
      obtain ⟨sign, body, rfl, isSign, isNumeral⟩ := (mul_rmatch_iff _ _ _).mp isNumber
      refine ⟨sign, body, rfl, ?_, numeral_rmatch_iff.mp isNumeral⟩
      rw [add_rmatch_iff, one_rmatch_iff, char_rmatch_iff] at isSign
      exact isSign.imp_right fun isMinus => ⟨isMinus, isSigned⟩
    · exact ⟨[], text, rfl, .inl rfl, numeral_rmatch_iff.mp isNumber⟩
  · rintro ⟨sign, body, rfl, isSign, isNumeral⟩
    have matched := numeral_rmatch_iff.mpr isNumeral
    split
    · refine (mul_rmatch_iff _ _ _).mpr ⟨sign, body, rfl, ?_, matched⟩
      rw [add_rmatch_iff, one_rmatch_iff, char_rmatch_iff]
      exact isSign.imp_right And.left
    · rename_i notSigned
      rcases isSign with rfl | ⟨-, isSigned⟩
      · exact matched
      · contradiction

/-- A fraction at the front of a text is no longer than the one that is read there. -/
theorem length_le_fraction {fraction : List Char} (isFraction : Fraction fraction)
    (leads : fraction <+: text) :
    fraction.length ≤ (Piece.fraction text).length := by
  cases isFraction with
  | none => exact Nat.zero_le _
  | some isDigit areDigits =>
    obtain ⟨rest, rfl⟩ := leads
    rw [List.cons_append, List.cons_append, Piece.fraction, if_pos isDigit]
    have atMost := length_le_takeWhile (List.prefix_append _ rest) areDigits
    simpa using atMost

/-- A numeral at the front of a text is no longer than the one that is read there. -/
theorem length_le_digits {other : List Char} (read : Piece.digits first rest = .ok text)
    (isNumeral : Numeral other) (leads : other <+: first :: rest) :
    other.length ≤ text.length := by
  cases isNumeral with
  | mk isDigit areDigits noZero isFraction =>
    rename_i digit whole fraction
    obtain ⟨same, follows⟩ := List.cons_prefix_cons.mp leads
    subst same
    unfold Piece.digits at read
    split at read
    · rename_i isZero
      rw [noZero (beq_iff_eq.mp isZero), List.nil_append] at follows ⊢
      have atMost := length_le_fraction isFraction follows
      split at read
      · split at read
        · contradiction
        · rw [← Except.ok.inj read]
          simpa using atMost
      · rw [← Except.ok.inj read]
        simpa [Piece.fraction] using atMost
    · rw [← Except.ok.inj read]
      cases isFraction with
      | none =>
        have atMost := length_le_takeWhile (by simpa using follows) areDigits
        simp only [List.append_nil, List.length_cons, List.length_append]
        omega
      | some isDigit areMore =>
        rename_i d more
        obtain ⟨tail, rfl⟩ := follows
        have run : (whole ++ '.' :: d :: more ++ tail).takeWhile Char.isDigit = whole := by
          rw [List.append_assoc]
          exact takeWhile_stretch areDigits (by simp)
        have atMost := length_le_fraction (.some isDigit areMore)
          (List.prefix_append ('.' :: d :: more) tail)
        rw [run, List.append_assoc, List.drop_left]
        simp only [List.length_cons, List.length_append] at atMost ⊢
        omega

theorem digits_error {cause : Fault} (read : Piece.digits first rest = .error cause) :
    cause = .leadingZero ∧ first = '0' ∧ ∃ d more, rest = d :: more ∧ d.isDigit = true := by
  unfold Piece.digits at read
  split at read
  · rename_i isZero
    split at read
    · rename_i d more
      split at read
      · rename_i isDigit
        exact ⟨(Except.error.inj read).symm, beq_iff_eq.mp isZero, d, more, rfl, isDigit⟩
      · contradiction
    · contradiction
  · contradiction

theorem length_le_zero {d : Char} {more other : List Char} (isDigit : d.isDigit = true)
    (isNumeral : Numeral other) (leads : other <+: '0' :: d :: more) :
    other.length ≤ 1 := by
  cases isNumeral with
  | mk _ _ noZero isFraction =>
    obtain ⟨same, follows⟩ := List.cons_prefix_cons.mp leads
    rw [noZero same, List.nil_append] at follows ⊢
    cases isFraction with
    | none => exact Nat.le_refl 1
    | some =>
      obtain ⟨point, -⟩ := List.cons_prefix_cons.mp follows
      exact absurd point.symm (Text.ne_of_isDigit isDigit (by decide))

theorem notDigit_behind_fraction (outside : ∀ c ∈ text.head?, c.isDigit = false) :
    ∀ c ∈ (text.drop (Piece.fraction text).length).head?, c.isDigit = false := by
  unfold Piece.fraction
  split
  · rename_i d more
    split
    · simp only [List.length_cons, List.drop_succ_cons, drop_takeWhile]
      exact notPart_head_dropWhile Char.isDigit more
    · exact outside
  · exact outside

theorem notDigit_behind_digits (read : Piece.digits first rest = .ok text) :
    ∀ c ∈ ((first :: rest).drop text.length).head?, c.isDigit = false := by
  unfold Piece.digits at read
  split at read
  · split at read
    · rename_i d more
      split at read
      · contradiction
      · rename_i notDigit
        rw [← Except.ok.inj read, List.length_cons, List.drop_succ_cons]
        exact notDigit_behind_fraction (by simpa using notDigit)
    · rw [← Except.ok.inj read]
      simp
  · have outside : ∀ c ∈ (rest.drop (rest.takeWhile Char.isDigit).length).head?,
        c.isDigit = false := by
      rw [drop_takeWhile]
      exact notPart_head_dropWhile Char.isDigit rest
    rw [← Except.ok.inj read]
    simp only [List.cons_append, List.length_cons, List.length_append, List.drop_succ_cons,
      ← List.drop_drop]
    exact notDigit_behind_fraction outside

theorem numeral_begins (isNumeral : Numeral text) :
    ∃ d more, text = d :: more ∧ d.isDigit = true := by
  cases isNumeral with
  | mk isDigit => exact ⟨_, _, rfl, isDigit⟩

/-- What is read from the first digit of a number on, behind its sign, is its longest stretch. -/
theorem longest_number {sign : List Char} (isSign : sign = [] ∨ sign = ['-'] ∧ signed = true)
    (isDigit : first.isDigit = true) (leads : text <+: first :: rest) (isNumeral : Numeral text)
    (greatest : ∀ other, other <+: first :: rest → Numeral other → other.length ≤ text.length) :
    longest (isNumber signed) (sign ++ first :: rest) = some (sign ++ text) := by
  have notMinus : first ≠ '-' := Text.ne_of_isDigit isDigit (by decide)
  refine longest_eq_some ((List.prefix_append_right_inj sign).mpr leads)
    (isNumber_iff.mpr ⟨sign, text, rfl, isSign, isNumeral⟩) ?_
  intro other otherLeads isNumber
  obtain ⟨otherSign, body, rfl, isOtherSign, isBody⟩ := isNumber_iff.mp isNumber
  -- A numeral begins with a digit, so both stretches have the same sign.
  have same : otherSign = sign := by
    obtain ⟨d, more, rfl, isDigit⟩ := numeral_begins isBody
    rcases isSign with rfl | ⟨rfl, -⟩ <;> rcases isOtherSign with rfl | ⟨rfl, -⟩
    · rfl
    · exact absurd (List.cons_prefix_cons.mp otherLeads).1.symm notMinus
    · exact absurd (List.cons_prefix_cons.mp otherLeads).1
        (Text.ne_of_isDigit isDigit (by decide))
    · rfl
  subst same
  have atMost := greatest body ((List.prefix_append_right_inj otherSign).mp otherLeads) isBody
  rw [List.length_append, List.length_append]
  omega

/-- No number begins with a character that is neither a digit nor the sign of one. -/
theorem longest_number_eq_none (notDigit : first.isDigit = false)
    (notSign : first = '-' → signed = true → ∀ d ∈ rest.head?, d.isDigit = false) :
    longest (isNumber signed) (first :: rest) = none := by
  apply longest_eq_none
  intro other leads
  rw [Bool.eq_false_iff]
  intro isNumber
  obtain ⟨sign, body, rfl, isSign, isBody⟩ := isNumber_iff.mp isNumber
  obtain ⟨d, more, rfl, isDigit⟩ := numeral_begins isBody
  rcases isSign with rfl | ⟨rfl, isSigned⟩
  · rw [(List.cons_prefix_cons.mp leads).1, notDigit] at isDigit
    contradiction
  · obtain ⟨isMinus, follows⟩ := List.cons_prefix_cons.mp leads
    obtain ⟨others, rfl⟩ := follows
    rw [notSign isMinus.symm isSigned d (by simp)] at isDigit
    contradiction

/-! ## Words and symbols -/

theorem longest_word (starts : Text.isNameStart first = true) (rest : List Char) :
    longest isWord (first :: rest) = some (first :: rest.takeWhile Text.isNameContinue) := by
  have inside : (rest.takeWhile Text.isNameContinue).all Text.isNameContinue = true :=
    List.all_takeWhile
  refine longest_eq_some
    (List.cons_prefix_cons.mpr ⟨rfl, List.takeWhile_prefix Text.isNameContinue⟩)
    (by simp [isWord, starts, inside]) ?_
  intro other leads isWord
  cases other with
  | nil => exact Nat.zero_le _
  | cons c other =>
    have follows := (List.cons_prefix_cons.mp leads).2
    have continues := (Bool.and_eq_true_iff.mp isWord).2
    have atMost := length_le_takeWhile follows (List.all_eq_true.mp continues)
    simpa using atMost

theorem longest_word_eq_none (notStart : Text.isNameStart first = false) (rest : List Char) :
    longest isWord (first :: rest) = none := by
  apply longest_eq_none
  intro other leads
  cases other with
  | nil => rfl
  | cons c other =>
    rw [isWord, (List.cons_prefix_cons.mp leads).1, notStart, Bool.false_and]

theorem symbolOf?_eq_some_iff {spelling : List Char} {mark : Symbol} :
    symbolOf? spelling = some mark ↔ mark.spelling.toList = spelling := by
  constructor
  · intro found
    unfold symbolOf? at found
    have isSpelling := List.find?_some found
    exact beq_iff_eq.mp isSpelling
  · intro same
    subst same
    cases mark <;> rfl

theorem ofOne?_eq_symbolOf? (first : Char) : Symbol.ofOne? first = symbolOf? [first] := by
  ext mark
  rw [symbolOf?_eq_some_iff]
  constructor
  · exact Symbol.spelling_of_ofOne?
  · intro spelling
    cases mark <;> cases spelling <;> rfl

theorem ofTwo?_eq_symbolOf? (first second : Char) :
    Symbol.ofTwo? first second = symbolOf? [first, second] := by
  ext mark
  rw [symbolOf?_eq_some_iff]
  constructor
  · exact Symbol.spelling_of_ofTwo?
  · intro spelling
    cases mark <;> cases spelling <;> rfl

theorem symbolOf?_cases {spelling : List Char} (isSymbol : (symbolOf? spelling).isSome = true) :
    (∃ first, spelling = [first]) ∨ ∃ first second, spelling = [first, second] := by
  obtain ⟨mark, found⟩ := Option.isSome_iff_exists.mp isSymbol
  rw [symbolOf?_eq_some_iff] at found
  subst found
  cases mark <;> simp [Symbol.spelling]

/-- The longest symbol has two characters if two characters spell one. -/
theorem longest_symbol (first : Char) (rest : List Char) :
    (longest (fun text => (symbolOf? text).isSome) (first :: rest)).bind symbolOf? =
      (rest.head?.bind (Symbol.ofTwo? first)).or (Symbol.ofOne? first) := by
  have two : ∀ second ∈ rest.head?, [first, second] <+: first :: rest := by
    intro second isHead
    obtain ⟨others, rfl⟩ := List.head?_eq_some_iff.mp isHead
    exact ⟨others, rfl⟩
  have one : [first] <+: first :: rest := ⟨rest, rfl⟩
  cases found : rest.head?.bind (Symbol.ofTwo? first) with
  | some mark =>
    obtain ⟨second, isHead, isTwo⟩ := Option.bind_eq_some_iff.mp found
    rw [ofTwo?_eq_symbolOf?] at isTwo
    have isLongest : longest (fun text => (symbolOf? text).isSome) (first :: rest) =
        some [first, second] := by
      refine longest_eq_some (two second isHead) (by rw [isTwo]; rfl) ?_
      intro other leads isSymbol
      rcases symbolOf?_cases isSymbol with ⟨c, rfl⟩ | ⟨c, d, rfl⟩ <;> simp
    rw [isLongest, Option.bind_some, isTwo, Option.some_or]
  | none =>
    -- A symbol at the front of the text has one character.
    have alone : ∀ other, other <+: first :: rest → (symbolOf? other).isSome = true →
        other = [first] := by
      intro other leads isSymbol
      rcases symbolOf?_cases isSymbol with ⟨c, rfl⟩ | ⟨c, d, rfl⟩
      · rw [(List.cons_prefix_cons.mp leads).1]
      · obtain ⟨same, follows⟩ := List.cons_prefix_cons.mp leads
        obtain ⟨others, rfl⟩ := follows
        rw [List.cons_append, List.head?_cons, Option.bind_some, ofTwo?_eq_symbolOf?, ← same]
          at found
        rw [found] at isSymbol
        contradiction
    rw [Option.none_or, ofOne?_eq_symbolOf?]
    cases single : symbolOf? [first] with
    | some mark =>
      have isLongest : longest (fun text => (symbolOf? text).isSome) (first :: rest) =
          some [first] := by
        refine longest_eq_some one (by rw [single]; rfl) ?_
        intro other leads isSymbol
        rw [alone other leads isSymbol]
      rw [isLongest, Option.bind_some, single]
    | none =>
      have nothing : longest (fun text => (symbolOf? text).isSome) (first :: rest) = none := by
        apply longest_eq_none
        intro other leads
        rw [Bool.eq_false_iff]
        intro isSymbol
        rw [alone other leads isSymbol, single] at isSymbol
        contradiction
      rw [nothing, Option.bind_none]

end Parlance.Greedy
