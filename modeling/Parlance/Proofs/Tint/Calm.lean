import Parlance.Proofs.Tint.Walk
import Parlance.Proofs.Token.Longest
import Parlance.Proofs.Token.Reach

/-!
Contract: the pieces that begin in gaps, numbers, symbols and words.

Owns: that gaps, numbers, symbols and words are calm, each with the classes of the pieces that begin
in it. So the pieces of a text may get out of step with its tokens, but only over faint characters.
Does not own: comments and strings, with which pieces and tokens are in step again.
-/

namespace Parlance

namespace Tint

variable {c : Char} {rest front more : List Char} {tint : Tint} {before : Option Char}

/-- Classes that stand neither for comments nor for strings. -/
def isQuiet : Tint → Bool
  | .comment | .doubleString | .singleString => false
  | _ => true

/-! ## Blanks -/

theorem first_blank (isBlank : Text.isBlank c = true) :
    first before (c :: rest) = (.blank, ((c :: rest).takeWhile Text.isBlank).length) :=
  firstOf_cons (by simp [Rule.blank, isBlank])

theorem calm_blanks (areBlank : ∀ c ∈ front, Text.isBlank c = true) (rest : List Char) :
    Calm (· = .blank) front rest := by
  intro done c more same before
  have isBlank : Text.isBlank c = true := areBlank c (by rw [same]; simp)
  rw [List.cons_append, first_blank isBlank, ← List.cons_append]
  refine ⟨rfl, .of_stretch (List.takeWhile_prefix Text.isBlank) ?_⟩
  intro d member
  have isBlank : Text.isBlank d = true := List.all_eq_true.mp List.all_takeWhile d member
  rw [isFaint, isBlank]
  rfl

/-! ## Symbols -/

theorem of_symbol_head (holds : Char → Bool)
    (checked : Symbol.all.all (fun mark => mark.spelling.toList.head?.all holds) = true)
    (isHead : (Symbol.all.any fun mark => mark.spelling.toList.head? == some c) = true) :
    holds c = true := by
  obtain ⟨mark, member, same⟩ := List.any_eq_true.mp isHead
  have found := List.all_eq_true.mp checked mark member
  rwa [beq_iff_eq.mp same] at found

theorem isHead_of_spelling {mark : Symbol} (spelling : mark.spelling.toList = c :: more) :
    (Symbol.all.any fun mark => mark.spelling.toList.head? == some c) = true := by
  have listed : mark ∈ Symbol.all := by cases mark <;> decide
  exact List.any_eq_true.mpr ⟨mark, listed, by rw [spelling]; simp⟩

theorem opens_of_symbol
    (isHead : (Symbol.all.any fun mark => mark.spelling.toList.head? == some c) = true)
    (opens : tint.opens c = true) :
    tint = .operator ∨ tint = .punctuation ∨ tint = .error := by
  have checked : Symbol.all.all (fun mark => mark.spelling.toList.head?.all fun c =>
      !tint.opens c || tint == .operator || tint == .punctuation || tint == .error) = true := by
    cases tint <;> decide +kernel
  have found := of_symbol_head _ checked isHead
  rw [opens] at found
  simpa [or_assoc] using found

theorem Stretch.mark {stretch : List Char} (isStretch : Stretch tint stretch)
    (isSymbol : tint = .operator ∨ tint = .punctuation) :
    ∃ mark : Symbol, stretch = mark.spelling.toList := by
  cases isStretch with
  | symbol => exact ⟨_, rfl⟩
  | word isListed => rcases isSymbol with rfl | rfl <;> cases isListed
  | number isNumber => rcases isSymbol with rfl | rfl <;> simp at isNumber
  | name isName => rcases isSymbol with rfl | rfl <;> simp at isName
  | _ => simp at isSymbol

theorem Rule.spellings_ne_zero {spellings : List String} {spelling : String} {text : List Char}
    (filled : ∀ other ∈ spellings, other.toList ≠ []) (member : spelling ∈ spellings)
    (leads : spelling.toList <+: text) :
    Rule.spellings spellings before text ≠ 0 := by
  unfold Rule.spellings
  split
  · rename_i other found
    have isFilled := filled other (List.mem_of_find?_eq_some found)
    simpa using isFilled
  · rename_i nothing
    have apart := List.find?_eq_none.mp nothing spelling member
    exact absurd (List.isPrefixOf_iff_prefix.mpr leads) apart

theorem first_ne_error_of_mark {mark : Symbol} (spelling : mark.spelling.toList = [c]) :
    (first before (c :: rest)).1 ≠ .error := by
  intro isError
  have nothing := first_error isError
  have leads : mark.spelling.toList <+: c :: rest := by
    rw [spelling]
    exact ⟨rest, rfl⟩
  have apart : ∀ tint spellings, (tint, Rule.spellings spellings) ∈ rules →
      spellings.all (fun other => !other.toList.isEmpty) = true → mark.spelling ∉ spellings := by
    intro tint spellings member filled isListed
    have zero : Rule.spellings spellings before (c :: rest) = 0 := nothing _ member
    refine Rule.spellings_ne_zero (fun other isOther => ?_) isListed leads zero
    simpa using List.all_eq_true.mp filled other isOther
  have signs := apart .operator _ (List.mem_of_getElem? (i := 12) rfl) (by decide)
  have points := apart .operator _ (List.mem_of_getElem? (i := 13) rfl) (by decide)
  have brackets := apart .punctuation _ (List.mem_of_getElem? (i := 17) rfl) (by decide)
  have short : mark.spelling.toList.length = 1 := congrArg List.length spelling
  revert signs points brackets short
  cases mark <;> decide

/-- A symbol of one character that is not the first of two is a piece. -/
theorem first_mark {mark : Symbol} (before : Option Char) (spelling : mark.spelling.toList = [c])
    (alone : ∀ d ∈ rest.head?, Symbol.ofTwo? c d = none) :
    ((first before (c :: rest)).1 = .operator ∨ (first before (c :: rest)).1 = .punctuation) ∧
      (first before (c :: rest)).2 = 1 := by
  obtain ⟨stretch, leads, width, isStretch⟩ := first_stretch before (List.cons_ne_nil c rest)
  obtain ⟨initial, more, rfl⟩ := List.exists_cons_of_ne_nil isStretch.filled
  obtain ⟨rfl, follows⟩ := List.cons_prefix_cons.mp leads
  have kind : (first before (initial :: rest)).1 = .operator ∨
      (first before (initial :: rest)).1 = .punctuation := by
    rcases opens_of_symbol (isHead_of_spelling spelling) isStretch.opens with
      isKind | isKind | isError
    · exact .inl isKind
    · exact .inr isKind
    · exact absurd isError (first_ne_error_of_mark spelling)
  refine ⟨kind, ?_⟩
  obtain ⟨other, same⟩ := isStretch.mark kind
  have found : Greedy.symbolOf? (initial :: more) = some other :=
    Greedy.symbolOf?_eq_some_iff.mpr same.symm
  rcases Greedy.symbolOf?_cases (by rw [found]; rfl) with ⟨d, isOne⟩ | ⟨d, e, isTwo⟩
  · rw [width, isOne]
    rfl
  · obtain ⟨rfl, rfl⟩ := List.cons.inj isTwo
    obtain ⟨others, rfl⟩ := follows
    rw [← Greedy.ofTwo?_eq_symbolOf?, alone e (by simp)] at found
    contradiction

theorem first_two {mark : Symbol} {d : Char} (spelling : mark.spelling.toList = [c, d])
    (rest : List Char) :
    first before (c :: d :: rest) = (.operator, 2) := by
  have closed : ∀ tint ∈ (rules.take 11).map Prod.fst, tint.opens c = false := by
    intro tint member
    rw [Bool.eq_false_iff]
    intro opens
    rcases opens_of_symbol (isHead_of_spelling spelling) opens with rfl | rfl | rfl <;>
      revert member <;> decide
  rw [first_drop 11 closed]
  cases mark <;> cases spelling <;> rfl

/-! ## Numbers -/

theorem isFaint_of_plain (isPlain : c = '.' ∨ c.isDigit = true) : isFaint c = true := by
  rcases isPlain with rfl | isDigit
  · rfl
  · rw [isFaint, isDigit, Bool.or_true]

theorem opens_of_isDigit (isDigit : c.isDigit = true) (opens : tint.opens c = true) :
    tint = .decimal ∨ tint = .whole ∨ tint = .error := by
  have notLetter : isLetter c = false := by
    rw [Bool.eq_false_iff]
    intro isLetter
    rw [Text.isDigit_eq_false_of_isNameStart (isNameStart_of_isLetter isLetter)] at isDigit
    contradiction
  have notSymbol : (Symbol.all.any fun mark => mark.spelling.toList.head? == some c) = false := by
    rw [Bool.eq_false_iff]
    intro isHead
    have apart := of_symbol_head (fun c => !c.isDigit) (by decide) isHead
    rw [isDigit] at apart
    contradiction
  have notBlank := Text.isBlank_eq_false (Text.isNameContinue_of_isDigit isDigit)
  have other : ∀ d, d.isDigit = false → (c == d) = false := fun d notDigit =>
    beq_eq_false_iff_ne.mpr (Text.ne_of_isDigit isDigit notDigit)
  cases tint with
  | decimal | whole | error => simp
  | blank => exact absurd opens (by rw [Tint.opens, notBlank]; exact Bool.false_ne_true)
  | comment | doubleString | singleString =>
    rw [Tint.opens, other _ (by decide)] at opens
    contradiction
  | operator | punctuation =>
    rw [Tint.opens, notSymbol] at opens
    contradiction
  | _ =>
    rw [Tint.opens, notLetter] at opens
    · contradiction
    all_goals simp

theorem Rule.whole_ne_zero (isDigit : c.isDigit = true) (before : Option Char) (rest : List Char) :
    Rule.whole before (c :: rest) ≠ 0 := by
  unfold Rule.whole
  split
  · simp
  · simp [isDigit]

/-- What begins with a digit is a number, and its characters are faint. -/
theorem first_digit (isDigit : c.isDigit = true) (before : Option Char) (rest : List Char) :
    ((first before (c :: rest)).1 = .decimal ∨ (first before (c :: rest)).1 = .whole) ∧
      ∃ stretch, stretch <+: c :: rest ∧ (first before (c :: rest)).2 = stretch.length ∧
        ∀ d ∈ stretch, isFaint d = true := by
  obtain ⟨stretch, leads, width, isStretch⟩ := first_stretch before (List.cons_ne_nil c rest)
  obtain ⟨initial, more, rfl⟩ := List.exists_cons_of_ne_nil isStretch.filled
  obtain ⟨rfl, -⟩ := List.cons_prefix_cons.mp leads
  have kind : (first before (initial :: rest)).1 = .decimal ∨
      (first before (initial :: rest)).1 = .whole := by
    rcases opens_of_isDigit isDigit isStretch.opens with isKind | isKind | isError
    · exact .inl isKind
    · exact .inr isKind
    · have zero := first_error isError (.whole, Rule.whole) (List.mem_of_getElem? (i := 5) rfl)
      exact absurd zero (Rule.whole_ne_zero isDigit before rest)
  refine ⟨kind, initial :: more, leads, width, ?_⟩
  generalize (first before (initial :: rest)).1 = tint at isStretch kind
  generalize same : initial :: more = text at isStretch ⊢
  cases isStretch with
  | number isNumber isFirst plain =>
    rw [List.forall_mem_cons]
    exact ⟨isFaint_of_plain (.inr isFirst), fun d member => isFaint_of_plain (plain d member)⟩
  | word isListed => rcases kind with rfl | rfl <;> cases isListed
  | name isName => rcases kind with rfl | rfl <;> simp at isName
  | symbol isSymbol => rcases kind with rfl | rfl <;> simp at isSymbol
  | _ => simp at kind

/-- The classes in numbers and symbols. -/
def isSimple : Tint → Bool
  | .decimal | .whole | .operator | .punctuation => true
  | _ => false

/-- A symbol of one character takes nothing behind it. -/
theorem simple_of_mark (before : Option Char) (mark : Symbol)
    (spelling : mark.spelling.toList = [c])
    (alone : ∀ d ∈ (more ++ rest).head?, Symbol.ofTwo? c d = none) :
    (first before (c :: more ++ rest)).1.isSimple = true ∧
      Faint ((first before (c :: more ++ rest)).2 - (c :: more).length) rest := by
  rw [List.cons_append]
  obtain ⟨kind, width⟩ := first_mark before spelling alone
  refine ⟨?_, .of_le ?_ rest⟩
  · rcases kind with same | same <;> rw [same] <;> rfl
  · rw [width, List.length_cons]
    omega

theorem calm_digits (plain : ∀ c ∈ front, c = '.' ∨ c.isDigit = true) (rest : List Char) :
    Calm (isSimple · = true) front rest := by
  induction front with
  | nil => exact .nil _ rest
  | cons c front ih =>
    refine .cons (fun before => ?_)
      (ih fun d member => plain d (List.mem_cons_of_mem c member))
    rcases plain c List.mem_cons_self with rfl | isDigit
    · exact simple_of_mark before .dot rfl fun _ _ => rfl
    · obtain ⟨kind, stretch, leads, width, areFaint⟩ := first_digit isDigit before (front ++ rest)
      rw [← List.cons_append] at *
      refine ⟨?_, ?_⟩
      · rcases kind with same | same <;> rw [same] <;> rfl
      · rw [width]
        exact .of_stretch leads areFaint

theorem calm_number {sign text : List Char} (isSign : sign = [] ∨ sign = ['-'])
    (isNumeral : Numeral text) (rest : List Char) :
    Calm (isSimple · = true) (sign ++ text) rest := by
  have digits := calm_digits isNumeral.plain.2 rest
  rcases isSign with rfl | rfl
  · exact digits
  · -- No symbol of two characters is made of a minus sign and a digit.
    refine .cons (fun before => simple_of_mark before .minus rfl ?_) digits
    obtain ⟨d, more, rfl, isDigit⟩ := Greedy.numeral_begins isNumeral
    intro other isHead
    obtain rfl : d = other := by simpa using isHead
    have notEqual := Text.ne_of_isDigit isDigit (show '='.isDigit = false by decide)
    have notGreater := Text.ne_of_isDigit isDigit (show '>'.isDigit = false by decide)
    unfold Symbol.ofTwo?
    split <;> first | rfl | contradiction

/-! ## Words -/

/-- Where a name goes on no blank, comment, string or symbol begins. -/
theorem opens_of_isNameContinue (continues : Text.isNameContinue c = true)
    (opens : tint.opens c = true) :
    tint ≠ .blank ∧ tint.isQuiet = true ∧ tint ≠ .operator ∧ tint ≠ .punctuation := by
  have notBlank := Text.isBlank_eq_false continues
  have other : ∀ d, Text.isNameContinue d = false → (c == d) = false := by
    intro d outside
    rw [beq_eq_false_iff_ne]
    rintro rfl
    rw [continues] at outside
    contradiction
  have notSymbol : (Symbol.all.any fun mark => mark.spelling.toList.head? == some c) = false := by
    rw [Bool.eq_false_iff]
    intro isHead
    have apart := of_symbol_head (fun c => !Text.isNameContinue c) (by decide +kernel) isHead
    rw [continues] at apart
    contradiction
  cases tint with
  | blank =>
    rw [Tint.opens, notBlank] at opens
    contradiction
  | comment | doubleString | singleString =>
    rw [Tint.opens, other _ (by decide)] at opens
    contradiction
  | operator | punctuation =>
    rw [Tint.opens, notSymbol] at opens
    contradiction
  | _ => simp [isQuiet]

/-- What begins in a name is a number or goes on like a name. -/
theorem Stretch.continues (isStretch : Stretch tint (c :: more))
    (isName : Text.isNameContinue c = true) :
    (∀ d ∈ c :: more, isFaint d = true) ∨ ∀ d ∈ c :: more, Text.isNameContinue d = true := by
  obtain ⟨notBlank, isQuiet, notOperator, notPunctuation⟩ :=
    opens_of_isNameContinue isName isStretch.opens
  generalize same : c :: more = text at isStretch ⊢
  cases isStretch with
  | number isNumber isDigit plain =>
    left
    rw [List.forall_mem_cons]
    exact ⟨isFaint_of_plain (.inr isDigit), fun d member => isFaint_of_plain (plain d member)⟩
  | word isListed =>
    right
    have continues : (listed tint).all (fun word => word.toList.all Text.isNameContinue) =
        true := by
      cases tint <;> decide +kernel
    exact List.all_eq_true.mp (List.all_eq_true.mp continues _ isListed)
  | name isKind starts areInner isEnding =>
    right
    rw [List.forall_mem_cons, List.forall_mem_append]
    refine ⟨isNameContinue_of_isNameChar (isNameChar_of_isLetter starts),
      fun d member => isNameContinue_of_isNameChar (areInner d member), ?_⟩
    rcases isEnding with rfl | rfl
    · exact List.forall_mem_nil _
    · exact List.forall_mem_singleton.mpr rfl
  | error =>
    right
    obtain ⟨rfl, -⟩ := List.cons.inj same
    simpa using isName
  | symbol isSymbol => rcases isSymbol with rfl | rfl <;> contradiction
  | _ => contradiction

theorem calm_word (continues : ∀ c ∈ front, Text.isNameContinue c = true)
    (clear : ∀ c ∈ rest.head?, Text.isNameContinue c = false) :
    Calm (isQuiet · = true) front rest := by
  intro done c more same before
  have inside : ∀ d ∈ c :: more, Text.isNameContinue d = true := fun d member =>
    continues d (by rw [same]; exact List.mem_append_right done member)
  obtain ⟨stretch, leads, width, isStretch⟩ :=
    first_stretch before (List.cons_ne_nil c (more ++ rest))
  obtain ⟨initial, others, rfl⟩ := List.exists_cons_of_ne_nil isStretch.filled
  obtain ⟨rfl, -⟩ := List.cons_prefix_cons.mp leads
  have isName := inside initial List.mem_cons_self
  refine ⟨(opens_of_isNameContinue isName isStretch.opens).2.1, ?_⟩
  rw [List.cons_append, width]
  rcases isStretch.continues isName with areFaint | areInside
  · rw [← List.cons_append] at leads
    exact .of_stretch leads areFaint
  · -- The word ends here, so a stretch of its characters does not leave it.
    have atMost := Greedy.length_le_takeWhile leads areInside
    rw [← List.cons_append, takeWhile_stretch inside clear] at atMost
    exact .of_le atMost rest

end Tint

/-! ## What stands behind a token -/

namespace Piece

/-- A word that is read ends before the first character that does not continue it. -/
theorem clear_of_read {signed : Bool} {first : Char} {front rest : List Char} {kind : Kind}
    {text quote : String}
    (read : Piece.read signed first (front ++ rest) = .word (first :: front).length kind text quote)
    (starts : Text.isNameStart first = true) :
    ∀ c ∈ rest.head?, Text.isNameContinue c = false := by
  rw [read_of_isNameStart starts, readWord] at read
  obtain ⟨width, -⟩ := Piece.word.inj read
  have parts : (front ++ rest).takeWhile Text.isNameContinue ++
      (front ++ rest).dropWhile Text.isNameContinue = front ++ rest :=
    List.takeWhile_append_dropWhile
  have behind := (List.append_inj parts (by simpa using width)).2
  rw [← behind]
  exact notPart_head_dropWhile Text.isNameContinue (front ++ rest)

/-- A symbol of one character that is read is not the first character of a symbol of two. -/
theorem alone_of_read {signed : Bool} {first : Char} {rest : List Char} {kind : Kind}
    {text quote : String} (read : Piece.read signed first rest = .word 1 kind text quote) :
    ∀ d ∈ rest.head?, Symbol.ofTwo? first d = none := by
  intro d isHead
  obtain ⟨others, rfl⟩ := List.head?_eq_some_iff.mp isHead
  cases two : Symbol.ofTwo? first d with
  | none => rfl
  | some mark =>
    have spelling := Symbol.spelling_of_ofTwo? two
    have taken : Piece.read signed first ([d] ++ others) =
        .word [first, d].length (.symbol mark) mark.spelling "" :=
      read_symbol spelling fun c _ => by simp [Symbol.apart, spelling]
    rw [List.singleton_append, read] at taken
    obtain ⟨width, -⟩ := Piece.word.inj taken
    simp at width

end Piece

/-! ## Tokens -/

namespace Tint

/-- No piece runs on into a symbol of two characters. -/
theorem strong_of_two {mark : Symbol} {c d : Char} (spelling : mark.spelling.toList = [c, d]) :
    isFaint c = false := by
  have checked : Symbol.all.all (fun mark => mark.spelling.toList.length != 2 ||
      mark.spelling.toList.head?.all fun c => !isFaint c) = true := by decide +kernel
  have isListed : mark ∈ Symbol.all := by cases mark <;> decide
  have holds := List.all_eq_true.mp checked mark isListed
  rw [spelling] at holds
  simpa using holds

/-- The walk through a token that is no string. Errors are found in names only. -/
theorem walk_of_spelled {signed : Bool} {word : Lexeme} {initial : Char} {front rest : List Char}
    {skip : Nat} (read : Parlance.Piece.read signed initial (front ++ rest) =
      .word (initial :: front).length word.kind word.text word.quote)
    (spelled : word.Spelled (initial :: front)) (notString : word.kind ≠ .string)
    (before : List Char) (faint : Faint skip (initial :: front ++ rest)) :
    ∃ own left, onward before skip (initial :: front ++ rest) =
        own ++ onward (before ++ initial :: front) left rest ∧ Faint left rest ∧
      ∀ piece ∈ own,
        (piece.tint.isQuiet = true ∧ (piece.tint = .error → Text.isNameStart initial = true)) ∧
          before.length ≤ piece.offset ∧ piece.offset < (before ++ initial :: front).length := by
  have simple : ∀ tint, isSimple tint = true →
      tint.isQuiet = true ∧ (tint = .error → Text.isNameStart initial = true) := by
    intro tint isSimple
    cases tint <;> first | contradiction | simp [isQuiet]
  generalize same : initial :: front = spelling at read spelled faint ⊢
  cases spelled with
  | word starts continues =>
    obtain ⟨rfl, rfl⟩ := List.cons.inj same
    have areInside : ∀ c ∈ initial :: front, Text.isNameContinue c = true :=
      List.forall_mem_cons.mpr ⟨Text.isNameContinue_of_isNameStart initial starts, continues⟩
    have calm : Calm (fun tint => tint.isQuiet = true ∧
        (tint = .error → Text.isNameStart initial = true)) (initial :: front) rest :=
      (calm_word areInside (Piece.clear_of_read read starts)).weaken
        fun tint isQuiet => ⟨isQuiet, fun _ => starts⟩
    exact calm.walk before skip faint.behind
  | number isSign isNumeral =>
    exact ((calm_number isSign isNumeral rest).weaken simple).walk before skip faint.behind
  | string => contradiction
  | symbol mark =>
    have found : Greedy.symbolOf? (initial :: front) = some mark :=
      Greedy.symbolOf?_eq_some_iff.mpr same.symm
    rcases Greedy.symbolOf?_cases (by rw [found]; rfl) with ⟨c, isOne⟩ | ⟨c, d, isTwo⟩
    · obtain ⟨rfl, rfl⟩ := List.cons.inj isOne
      rw [← same] at read faint ⊢
      have alone := Piece.alone_of_read read
      have calm : Calm (isSimple · = true) [initial] rest :=
        .cons (fun before => simple_of_mark before mark same.symm alone) (.nil _ rest)
      exact (calm.weaken simple).walk before skip faint.behind
    · obtain ⟨rfl, rfl⟩ := List.cons.inj isTwo
      rw [← same] at faint ⊢
      have strong := strong_of_two same.symm
      refine ⟨[⟨before.length, .operator, [initial, d]⟩], 0, ?_, by simp [Faint], ?_⟩
      · rw [faint.eq_zero strong, onward_piece (List.cons_ne_nil _ _)
          (first_two same.symm rest)]
        rfl
      · rw [List.forall_mem_singleton]
        exact ⟨simple .operator rfl, Nat.le_refl _, by simp⟩

end Tint

end Parlance
