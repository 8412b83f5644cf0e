import Parlance.Proofs.Grammar.Lexeme

/-!
Contract: the pieces that a text is cut into, and the spellings of words.

Owns: which characters spell which word (`Lexeme.Spelled`), what each piece of a text takes from it
(`Piece.Cuts`), and how a text is read piece by piece (`Reading.ByPieces`). What is known of reading
a text is derived from these three. Does not own: what a piece needs behind it in order to be read.
-/

namespace Parlance

variable {first : Char} {rest text : List Char} {last : Option Kind} {here : Position}

/-- A point and digits behind it, or nothing. -/
inductive Fraction : List Char → Prop where
  | none : Fraction []
  | some {digit : Char} {digits : List Char} (isDigit : digit.isDigit = true)
      (areDigits : ∀ c ∈ digits, c.isDigit = true) :
      Fraction ('.' :: digit :: digits)

/-- A number without its sign: digits, none of them behind a leading zero, and a fraction. -/
inductive Numeral : List Char → Prop where
  | mk {first : Char} {whole fraction : List Char} (isDigit : first.isDigit = true)
      (areDigits : ∀ c ∈ whole, c.isDigit = true) (noZero : first = '0' → whole = [])
      (isFraction : Fraction fraction) :
      Numeral (first :: (whole ++ fraction))

inductive Lexeme.Spelled : Lexeme → List Char → Prop where
  | word {first : Char} {more : List Char} (starts : Text.isNameStart first = true)
      (continues : ∀ c ∈ more, Text.isNameContinue c = true) :
      Lexeme.Spelled
        ⟨Kind.ofWord (String.ofList (first :: more)), String.ofList (first :: more), ""⟩
        (first :: more)
  | number {sign text : List Char} (isSign : sign = [] ∨ sign = ['-']) (numeral : Numeral text) :
      Lexeme.Spelled ⟨.number, String.ofList (sign ++ text), ""⟩ (sign ++ text)
  | string {quote : Char} {body : List Char} (isQuote : quote = '\x22' ∨ quote = '\x27')
      (free : quote ∉ body) :
      Lexeme.Spelled ⟨.string, String.ofList body, String.ofList [quote]⟩
        (quote :: (body ++ [quote]))
  | symbol (mark : Symbol) :
      Lexeme.Spelled ⟨.symbol mark, mark.spelling, ""⟩ mark.spelling.toList

/-- The kind of a word that is spelled like a name is none of those spelled otherwise. -/
theorem Kind.ofWord_ne (word : String) :
    Kind.ofWord word ≠ .number ∧ Kind.ofWord word ≠ .string ∧ Kind.ofWord word ≠ .newline ∧
      Kind.ofWord word ≠ .endOfInput := by
  have listed : ∀ entry ∈ Kind.reserved, entry.2 ≠ .number ∧ entry.2 ≠ .string ∧
      entry.2 ≠ .newline ∧ entry.2 ≠ .endOfInput := by decide
  unfold Kind.ofWord
  cases found : Kind.reserved.lookup word with
  | none => simp
  | some kind =>
    obtain ⟨front, back, same, -⟩ := List.lookup_eq_some_iff.mp found
    exact listed (word, kind) (by simp [same])

theorem Lexeme.Spelled.kind_ne {word : Lexeme} {spelling : List Char}
    (spelled : word.Spelled spelling) :
    word.kind ≠ .newline ∧ word.kind ≠ .endOfInput := by
  cases spelled with
  | word => exact (Kind.ofWord_ne _).2.2
  | number | string | symbol => simp

/-- Whether a line break stands at the front of a text. -/
def startsBreak : List Char → Bool
  | '\n' :: _ => true
  | '\r' :: '\n' :: _ => true
  | _ => false

/-- A comment runs up to the next line break, or to the end of the text. -/
structure Comment (body rest : List Char) : Prop where
  open_ : ∀ front back, body = front ++ back → back ≠ [] → startsBreak (back ++ rest) = false
  ends : rest = [] ∨ startsBreak rest = true

/-- What a piece takes from the front of a text, and what it leaves. -/
inductive Piece.Cuts : Piece → List Char → List Char → Prop where
  | space {rest : List Char} :
      Piece.Cuts (.gap 1) [' '] rest
  | comment {body rest : List Char} (isComment : Comment body rest) :
      Piece.Cuts (.gap (body.length + 1)) ('#' :: body) rest
  | feed {rest : List Char} :
      Piece.Cuts (.lineBreak 1) ['\n'] rest
  | returnFeed {rest : List Char} :
      Piece.Cuts (.lineBreak 2) ['\r', '\n'] rest
  | word {kind : Kind} {text quote : String} {spelling rest : List Char}
      (spelled : Lexeme.Spelled ⟨kind, text, quote⟩ spelling) :
      Piece.Cuts (.word spelling.length kind text quote) spelling rest

namespace Piece

theorem commentBody_cuts (text : List Char) :
    ∃ rest, text = commentBody text ++ rest ∧ Comment (commentBody text) rest := by
  fun_induction commentBody text with
  | case1 => exact ⟨[], rfl, by simp, .inl rfl⟩
  | case2 rest => exact ⟨'\n' :: rest, rfl, by simp, .inr rfl⟩
  | case3 rest => exact ⟨'\r' :: '\n' :: rest, rfl, by simp, .inr rfl⟩
  | case4 c text noFeed noReturn ih =>
    obtain ⟨rest, same, isComment⟩ := ih
    refine ⟨rest, by rw [List.cons_append, ← same], ?_, isComment.ends⟩
    intro front back split filled
    cases front with
    | nil =>
      rw [List.nil_append] at split
      rw [← split, List.cons_append, ← same]
      unfold startsBreak
      split
      · rename_i feeds
        exact absurd (List.cons.inj feeds).1 noFeed
      · rename_i returns
        obtain ⟨isReturn, feeds⟩ := List.cons.inj returns
        exact absurd feeds (noReturn _ isReturn)
      · rfl
    | cons first front =>
      exact isComment.open_ front back (List.cons.inj split).2 filled

theorem readString_cuts {quote : Char} (isQuote : quote = '\x22' ∨ quote = '\x27')
    (rest : List Char) :
    (∃ cause, readString quote rest = .fault cause) ∨
      ∃ text tail, quote :: rest = text ++ tail ∧ Cuts (readString quote rest) text tail := by
  unfold readString
  dsimp only
  split
  · rename_i shorter
    right
    have whole : rest.takeWhile (· != quote) ++ rest.dropWhile (· != quote) = rest :=
      List.takeWhile_append_dropWhile
    cases left : rest.dropWhile (· != quote) with
    | nil =>
      rw [left, List.append_nil] at whole
      rw [whole] at shorter
      exact absurd shorter (Nat.lt_irrefl _)
    | cons closing tail =>
      have closes : closing = quote := by
        have unequal := List.head?_dropWhile_not (· != quote) rest
        simpa [left] using unequal
      subst closes
      refine ⟨closing :: (rest.takeWhile (· != closing) ++ [closing]), tail, ?_, ?_⟩
      · rw [List.cons_append, List.append_assoc, List.singleton_append, ← left, whole]
      · have free : closing ∉ rest.takeWhile (· != closing) := fun member => by
          simpa using List.all_eq_true.mp List.all_takeWhile closing member
        have cuts : Cuts _ _ tail := .word (.string isQuote free)
        simpa using cuts
  · exact .inl ⟨_, rfl⟩

theorem takeWhile_digits (text : List Char) : ∀ c ∈ text.takeWhile Char.isDigit, c.isDigit = true :=
  List.all_eq_true.mp List.all_takeWhile

theorem fraction_cuts (text : List Char) :
    ∃ rest, text = fraction text ++ rest ∧ Fraction (fraction text) := by
  unfold fraction
  split
  · rename_i digit more
    split
    · rename_i isDigit
      refine ⟨more.dropWhile Char.isDigit, ?_, .some isDigit (takeWhile_digits more)⟩
      rw [List.cons_append, List.cons_append, List.takeWhile_append_dropWhile]
    · exact ⟨_, rfl, .none⟩
  · exact ⟨_, rfl, .none⟩

theorem digits_cuts (isDigit : first.isDigit = true) (read : digits first rest = .ok text) :
    ∃ tail, first :: rest = text ++ tail ∧ Numeral text := by
  have zero : ∃ tail, first :: rest = (first :: fraction rest) ++ tail ∧
      Numeral (first :: fraction rest) := by
    obtain ⟨tail, same, isFraction⟩ := fraction_cuts rest
    refine ⟨tail, by rw [List.cons_append, ← same], ?_⟩
    rw [← List.nil_append (fraction rest)]
    exact .mk isDigit (by simp) (fun _ => rfl) isFraction
  unfold digits at read
  split at read
  · split at read
    · split at read
      · contradiction
      · exact Except.ok.inj read ▸ zero
    · exact Except.ok.inj read ▸ zero
  · rename_i notZero
    obtain rfl := Except.ok.inj read
    obtain ⟨tail, same, isFraction⟩ :=
      fraction_cuts (rest.drop (rest.takeWhile Char.isDigit).length)
    refine ⟨tail, ?_, .mk isDigit (takeWhile_digits rest) ?_ isFraction⟩
    · have leads : rest.takeWhile Char.isDigit <+: rest := List.takeWhile_prefix Char.isDigit
      rw [List.cons_append, List.cons_append, List.append_assoc, ← same,
        List.prefix_iff_eq_append.mp leads]
    · rintro rfl
      simp at notZero

theorem readNumber_cuts {sign : List Char} (isSign : sign = [] ∨ sign = ['-'])
    (isDigit : first.isDigit = true) (rest : List Char) :
    (∃ cause, readNumber sign first rest = .fault cause) ∨
      ∃ text tail, sign ++ first :: rest = text ++ tail ∧
        Cuts (readNumber sign first rest) text tail := by
  unfold readNumber
  cases read : digits first rest with
  | error cause => exact .inl ⟨cause, rfl⟩
  | ok text =>
    right
    obtain ⟨tail, same, numeral⟩ := digits_cuts isDigit read
    refine ⟨sign ++ text, tail, by rw [same, List.append_assoc], ?_⟩
    dsimp only
    rw [← List.length_append]
    exact .word (.number isSign numeral)

theorem readWord_cuts (starts : Text.isNameStart first = true) (rest : List Char) :
    ∃ text tail, first :: rest = text ++ tail ∧ Cuts (readWord first rest) text tail := by
  refine ⟨first :: rest.takeWhile Text.isNameContinue, rest.dropWhile Text.isNameContinue, ?_, ?_⟩
  · rw [List.cons_append, List.takeWhile_append_dropWhile]
  · exact .word (.word starts (List.all_eq_true.mp List.all_takeWhile))

end Piece

namespace Symbol

theorem spelling_of_ofTwo? {second : Char} {mark : Symbol}
    (found : ofTwo? first second = some mark) : mark.spelling.toList = [first, second] := by
  unfold ofTwo? at found
  split at found <;> cases found <;> rfl

theorem spelling_of_ofOne? {mark : Symbol} (found : ofOne? first = some mark) :
    mark.spelling.toList = [first] := by
  unfold ofOne? at found
  split at found <;> cases found <;> rfl

end Symbol

namespace Piece

theorem readSymbol_cuts (first : Char) (rest : List Char) :
    (∃ cause, readSymbol first rest = .fault cause) ∨
      ∃ text tail, first :: rest = text ++ tail ∧ Cuts (readSymbol first rest) text tail := by
  unfold readSymbol
  split
  · rename_i mark found
    obtain ⟨second, isSecond, two⟩ := Option.bind_eq_some_iff.mp found
    obtain ⟨tail, rfl⟩ := List.head?_eq_some_iff.mp isSecond
    have spelling := Symbol.spelling_of_ofTwo? two
    refine .inr ⟨mark.spelling.toList, tail, by rw [spelling]; rfl, ?_⟩
    have cuts : Cuts _ _ tail := .word (.symbol mark)
    rw [spelling] at cuts ⊢
    exact cuts
  · split
    · rename_i mark one
      have spelling := Symbol.spelling_of_ofOne? one
      refine .inr ⟨mark.spelling.toList, rest, by rw [spelling]; rfl, ?_⟩
      have cuts : Cuts _ _ rest := .word (.symbol mark)
      rw [spelling] at cuts ⊢
      exact cuts
    · exact .inl ⟨_, rfl⟩

/-- A piece is a stretch at the front of the text, unless it is a fault. -/
theorem read_cuts (signed : Bool) (first : Char) (rest : List Char) :
    (∃ cause, read signed first rest = .fault cause) ∨
      ∃ text tail, first :: rest = text ++ tail ∧ Cuts (read signed first rest) text tail := by
  unfold read
  split
  · rename_i isSpace
    rw [beq_iff_eq.mp isSpace]
    exact .inr ⟨[' '], rest, rfl, .space⟩
  split
  · rename_i isHash
    rw [beq_iff_eq.mp isHash]
    obtain ⟨tail, same, isComment⟩ := commentBody_cuts rest
    exact .inr ⟨'#' :: commentBody rest, tail, by rw [List.cons_append, ← same],
      .comment isComment⟩
  split
  · rename_i isFeed
    rw [beq_iff_eq.mp isFeed]
    exact .inr ⟨['\n'], rest, rfl, .feed⟩
  split
  · rename_i isReturn
    rw [Bool.and_eq_true, beq_iff_eq, beq_iff_eq] at isReturn
    obtain ⟨tail, same⟩ := List.head?_eq_some_iff.mp isReturn.2
    exact .inr ⟨['\r', '\n'], tail, by rw [isReturn.1, same]; rfl, .returnFeed⟩
  split
  · rename_i isQuote
    rw [Bool.or_eq_true, beq_iff_eq, beq_iff_eq] at isQuote
    exact readString_cuts isQuote rest
  split
  · rename_i isDigit
    exact readNumber_cuts (.inl rfl) isDigit rest
  split
  · rename_i starts
    exact .inr (readWord_cuts starts rest)
  split
  · split
    · rename_i isSigned
      rw [Bool.and_eq_true] at isSigned
      exact readNumber_cuts (.inr rfl) isSigned.1 _
    · exact readSymbol_cuts _ _
  · exact readSymbol_cuts _ _

end Piece

namespace Position

@[simp] theorem afterAll_nil (here : Position) : here.afterAll [] = here := rfl

@[simp] theorem afterAll_cons (here : Position) (c : Char) (text : List Char) :
    here.afterAll (c :: text) = (here.after c).afterAll text := rfl

theorem afterAll_append (here : Position) (front back : List Char) :
    here.afterAll (front ++ back) = (here.afterAll front).afterAll back :=
  List.foldl_append

end Position

theorem Fraction.plain {fraction : List Char} (isFraction : Fraction fraction) :
    ∀ c ∈ fraction, c = '.' ∨ c.isDigit = true := by
  cases isFraction with
  | none => simp
  | some isDigit areDigits =>
    intro c member
    rcases List.mem_cons.mp member with rfl | member
    · exact .inl rfl
    rcases List.mem_cons.mp member with rfl | member
    · exact .inr isDigit
    · exact .inr (areDigits c member)

theorem Numeral.plain (numeral : Numeral text) :
    text ≠ [] ∧ ∀ c ∈ text, c = '.' ∨ c.isDigit = true := by
  cases numeral with
  | mk isDigit areDigits noZero isFraction =>
    refine ⟨by simp, fun c member => ?_⟩
    rcases List.mem_cons.mp member with rfl | member
    · exact .inr isDigit
    rcases List.mem_append.mp member with member | member
    · exact .inr (areDigits c member)
    · exact isFraction.plain c member

theorem Lexeme.Spelled.ends {word : Lexeme} {spelling : List Char}
    (spelled : word.Spelled spelling) :
    ∃ front c, spelling = front ++ [c] ∧ c ≠ '\n' := by
  have lastOf : ∀ {text : List Char}, text ≠ [] → (∀ c ∈ text, c ≠ '\n') →
      ∃ front c, text = front ++ [c] ∧ c ≠ '\n' := by
    intro text filled free
    exact ⟨text.dropLast, text.getLast filled, (List.dropLast_concat_getLast filled).symm,
      free _ (List.getLast_mem filled)⟩
  cases spelled with
  | word starts continues =>
    refine lastOf (by simp) fun c member => ?_
    have continues : Text.isNameContinue c = true := by
      rcases List.mem_cons.mp member with rfl | member
      · exact Text.isNameContinue_of_isNameStart c starts
      · exact continues c member
    rintro rfl
    revert continues
    decide
  | number isSign numeral =>
    refine lastOf (by simp [numeral.plain.1]) fun c member => ?_
    rintro rfl
    rcases List.mem_append.mp member with member | member
    · rcases isSign with rfl | rfl <;> simp at member
    · have plain := numeral.plain.2 _ member
      revert plain
      decide
  | string isQuote free =>
    refine ⟨_ :: _, _, rfl, ?_⟩
    rcases isQuote with rfl | rfl <;> decide
  | symbol mark =>
    have free : ('\n' ∉ mark.spelling.toList) := by cases mark <;> decide
    exact lastOf (by cases mark <;> decide) fun c member same => free (same ▸ member)

namespace Piece.Cuts

theorem filled {piece : Piece} (cuts : piece.Cuts text rest) : text ≠ [] := by
  cases cuts with
  | word spelled =>
    obtain ⟨front, c, rfl, -⟩ := spelled.ends
    simp
  | _ => simp

end Piece.Cuts

namespace Reading

/-- The characters of a piece that has been read are skipped. -/
theorem readOn_skip (last : Option Kind) (here : Position) (front rest : List Char) :
    readOn last here front.length (front ++ rest) = readOn last (here.afterAll front) 0 rest := by
  induction front generalizing here with
  | nil => rfl
  | cons c front ih => exact ih (here.after c)

theorem readOn_gap {front : List Char}
    (read : Piece.read (!last.any Kind.endsOperand) first (front ++ rest) =
      .gap (first :: front).length) :
    readOn last here 0 (first :: front ++ rest) =
      readOn last (here.afterAll (first :: front)) 0 rest := by
  rw [List.cons_append, readOn, read]
  exact readOn_skip last (here.after first) front rest

theorem readOn_lineBreak {front : List Char}
    (read : Piece.read (!last.any Kind.endsOperand) first (front ++ rest) =
      .lineBreak (first :: front).length) :
    readOn last here 0 (first :: front ++ rest) =
      cons ⟨.newline, "\n", "", .point here⟩
        (readOn (some .newline) (here.afterAll (first :: front)) 0 rest) := by
  rw [List.cons_append, readOn, read]
  exact congrArg (cons ⟨.newline, "\n", "", .point here⟩)
    (readOn_skip _ (here.after first) front rest)

theorem readOn_word {front : List Char} {kind : Kind} {text quote : String}
    (read : Piece.read (!last.any Kind.endsOperand) first (front ++ rest) =
      .word (first :: front).length kind text quote) :
    readOn last here 0 (first :: front ++ rest) =
      cons ⟨kind, text, quote, .between here (here.afterAll (first :: front))⟩
        (readOn (some kind) (here.afterAll (first :: front)) 0 rest) := by
  rw [List.cons_append, readOn, read]
  have taken : (first :: (front ++ rest)).take (first :: front).length = first :: front := by
    rw [← List.cons_append, List.take_left]
  simp only [taken]
  exact congrArg _ (readOn_skip _ (here.after first) front rest)

/-- A text and its reading, told piece by piece. Of each piece it is known what it takes, and that it
is the one that is read there. -/
inductive ByPieces : Option Kind → Position → List Char → Reading → Prop where
  | ended {last : Option Kind} {here : Position} : ByPieces last here [] (close last here)
  | fault {last : Option Kind} {here : Position} {first : Char} {others : List Char} {cause : Fault}
      (isFault : Piece.read (!last.any Kind.endsOperand) first others = .fault cause) :
      ByPieces last here (first :: others) ⟨[], .broken ⟨cause, .point here⟩⟩
  | gap {last : Option Kind} {here : Position} {first : Char} {front rest : List Char}
      {reading : Reading}
      (isGap : Piece.read (!last.any Kind.endsOperand) first (front ++ rest) =
        .gap (first :: front).length)
      (cuts : Piece.Cuts (.gap (first :: front).length) (first :: front) rest)
      (behind : ByPieces last (here.afterAll (first :: front)) rest reading) :
      ByPieces last here (first :: front ++ rest) reading
  | lineBreak {last : Option Kind} {here : Position} {first : Char} {front rest : List Char}
      {reading : Reading}
      (isBreak : Piece.read (!last.any Kind.endsOperand) first (front ++ rest) =
        .lineBreak (first :: front).length)
      (cuts : Piece.Cuts (.lineBreak (first :: front).length) (first :: front) rest)
      (behind : ByPieces (some .newline) (here.afterAll (first :: front)) rest reading) :
      ByPieces last here (first :: front ++ rest) (cons ⟨.newline, "\n", "", .point here⟩ reading)
  | word {last : Option Kind} {here : Position} {word : Lexeme} {first : Char}
      {front rest : List Char} {reading : Reading}
      (isWord : Piece.read (!last.any Kind.endsOperand) first (front ++ rest) =
        .word (first :: front).length word.kind word.text word.quote)
      (spelled : word.Spelled (first :: front))
      (behind : ByPieces (some word.kind) (here.afterAll (first :: front)) rest reading) :
      ByPieces last here (first :: front ++ rest)
        (cons ⟨word.kind, word.text, word.quote,
          .between here (here.afterAll (first :: front))⟩ reading)

theorem readOn_byPieces (last : Option Kind) (here : Position) (text : List Char) :
    ByPieces last here text (readOn last here 0 text) := by
  induction size : text.length using Nat.strongRecOn generalizing last here text with
  | ind length ih =>
    match text with
    | [] => exact .ended
    | first :: others =>
      rcases Piece.read_cuts (!last.any Kind.endsOperand) first others with
        ⟨cause, broken⟩ | ⟨taken, rest, same, cuts⟩
      · rw [readOn, broken]
        exact .fault broken
      · obtain ⟨c, front, rfl⟩ := List.exists_cons_of_ne_nil cuts.filled
        rw [List.cons_append] at same
        obtain ⟨rfl, rfl⟩ := List.cons.inj same
        have shorter : rest.length < length := by
          rw [← size, List.length_cons, List.length_append]
          omega
        have kept := fun last => ih rest.length shorter last
          (here.afterAll (first :: front)) rest rfl
        rw [← List.cons_append]
        generalize read : Piece.read (!last.any Kind.endsOperand) first (front ++ rest) = piece
          at cuts
        cases cuts with
        | space =>
          rw [readOn_gap read]
          exact .gap read .space (kept last)
        | comment isComment =>
          rw [readOn_gap read]
          exact .gap read (.comment isComment) (kept last)
        | feed =>
          rw [readOn_lineBreak read]
          exact .lineBreak read .feed (kept _)
        | returnFeed =>
          rw [readOn_lineBreak read]
          exact .lineBreak read .returnFeed (kept _)
        | word spelled =>
          rw [readOn_word read]
          exact .word read spelled (kept _)

theorem ofText_byPieces (source : String) :
    ByPieces none .start source.toList (ofText source) :=
  readOn_byPieces none .start source.toList

/-- What is told piece by piece is the reading. -/
theorem ByPieces.eq {reading : Reading} (read : ByPieces last here text reading) :
    reading = readOn last here 0 text := by
  induction read with
  | ended => rfl
  | fault isFault => rw [readOn, isFault]
  | gap isGap _ _ ih => rw [readOn_gap isGap, ih]
  | lineBreak isBreak _ _ ih => rw [readOn_lineBreak isBreak, ih]
  | word isWord _ _ ih => rw [readOn_word isWord, ih]

/-- What holds at the end of a text and at every fault, and is carried from behind each piece to
before it, holds of every reading. -/
theorem readOn_induction {motive : Option Kind → Position → List Char → Reading → Prop}
    (ended : ∀ last here, motive last here [] (close last here))
    (fault : ∀ last here text cause, motive last here text ⟨[], .broken ⟨cause, .point here⟩⟩)
    (gap : ∀ last here text rest reading, Piece.Cuts (.gap text.length) text rest →
      motive last (here.afterAll text) rest reading → motive last here (text ++ rest) reading)
    (lineBreak : ∀ last here text rest reading, Piece.Cuts (.lineBreak text.length) text rest →
      motive (some .newline) (here.afterAll text) rest reading →
        motive last here (text ++ rest) (cons ⟨.newline, "\n", "", .point here⟩ reading))
    (word : ∀ last here (word : Lexeme) text rest reading, word.Spelled text →
      motive (some word.kind) (here.afterAll text) rest reading →
        motive last here (text ++ rest)
          (cons ⟨word.kind, word.text, word.quote, .between here (here.afterAll text)⟩ reading))
    (last : Option Kind) (here : Position) (text : List Char) :
    motive last here text (readOn last here 0 text) := by
  have read := readOn_byPieces last here text
  generalize readOn last here 0 text = reading at read ⊢
  induction read with
  | ended => exact ended _ _
  | fault => exact fault _ _ _ _
  | gap _ cuts _ ih => exact gap _ _ _ _ _ cuts ih
  | lineBreak _ cuts _ ih => exact lineBreak _ _ _ _ _ cuts ih
  | word _ spelled _ ih => exact word _ _ _ _ _ _ spelled ih

end Reading

end Parlance
