import Parlance.Proofs.Token.Longest
import Parlance.Proofs.Token.Reach

/-!
Contract: texts are read greedily.

Owns: that a piece of a text is what the greedy reading takes at its place (`Greedy.ofPiece_read`),
where each token of a text comes from (`Token.ReadIn`), and that the tokens of a text are those of
the greedy reading up to its end or its first fault. So a reserved word that goes on as a name is
one name, and an integer that goes on as a number with a fraction is one number.
-/

namespace Parlance.Greedy

variable {rest text : List Char} {first : Char} {signed : Bool} {last : Option Kind}

/-! ## Pieces -/

/-- What a piece gives: a lexeme and the number of its characters, or a fault. A gap gives
nothing. -/
def ofPiece : Piece → Option (Except Fault (Lexeme × Nat))
  | .gap _ => none
  | .lineBreak width => some (.ok (⟨.newline, "\n", ""⟩, width))
  | .word width kind text quote => some (.ok (⟨kind, text, quote⟩, width))
  | .fault cause => some (.error cause)

theorem startsBreak_cons (first : Char) (rest : List Char) :
    startsBreak (first :: rest) = (first == '\n' || first == '\r' && rest.head? == some '\n') := by
  unfold startsBreak
  split
  · rename_i feeds
    obtain ⟨rfl, rfl⟩ := List.cons.inj feeds
    rfl
  · rename_i returns
    obtain ⟨rfl, rfl⟩ := List.cons.inj returns
    rfl
  · rename_i noFeed noReturn
    symm
    rw [Bool.or_eq_false_iff, Bool.and_eq_false_iff, beq_eq_false_iff_ne, beq_eq_false_iff_ne]
    refine ⟨fun isFeed => noFeed rest (by rw [isFeed]), ?_⟩
    by_cases isReturn : first = '\r'
    · right
      rw [beq_eq_false_iff_ne]
      intro isHead
      obtain ⟨others, rfl⟩ := List.head?_eq_some_iff.mp isHead
      exact noReturn others (by rw [isReturn])
    · exact .inl isReturn

theorem ofPiece_readString (isQuote : first = '\x22' ∨ first = '\x27') :
    ofPiece (Piece.readString first rest) = some (take signed first rest) := by
  have notBreak : startsBreak (first :: rest) = false := by
    rcases isQuote with rfl | rfl <;> rfl
  have opens : (first == '\x22' || first == '\x27') = true := by
    rcases isQuote with rfl | rfl <;> rfl
  unfold take
  rw [if_neg (by simp [notBreak]), if_pos opens]
  have body : rest.takeWhile (· != first) = rest.take (rest.findIdx (· == first)) := by
    rw [List.takeWhile_eq_take_findIdx_not]
    simp only [bne, Bool.not_not]
  have bounded : rest.findIdx (· == first) ≤ rest.length := List.findIdx_le_length
  unfold Piece.readString
  dsimp only
  rw [body, List.length_take, Nat.min_eq_left bounded]
  cases found : rest.findIdx? (· == first) with
  | some length =>
    obtain ⟨inside, same⟩ := List.findIdx?_eq_some_iff_findIdx_eq.mp found
    rw [same, if_pos inside]
    rfl
  | none =>
    have outside := List.findIdx?_eq_none_iff_findIdx_eq.mp found
    rw [outside, if_neg (Nat.lt_irrefl _)]
    rfl

theorem ofPiece_readNumber {sign : List Char} {c : Char} {others : List Char}
    (isSign : sign = [] ∨ sign = ['-'] ∧ signed = true) (isDigit : first.isDigit = true)
    (same : sign ++ first :: rest = c :: others) (notBreak : startsBreak (c :: others) = false)
    (notQuote : (c == '\x22' || c == '\x27') = false) :
    ofPiece (Piece.readNumber sign first rest) = some (take signed c others) := by
  unfold take Piece.readNumber
  rw [if_neg (by simp [notBreak]), if_neg (by simp [notQuote]), ← same]
  cases read : Piece.digits first rest with
  | error cause =>
    obtain ⟨rfl, rfl, d, more, rfl, follows⟩ := digits_error read
    have zero : Numeral ['0'] := .mk rfl (by simp) (fun _ => rfl) .none
    rw [longest_number isSign isDigit ⟨d :: more, rfl⟩ zero
      fun other leads isNumeral => length_le_zero follows isNumeral leads]
    rcases isSign with rfl | ⟨rfl, -⟩ <;> simp [integerPart, follows, ofPiece]
  | ok text =>
    obtain ⟨tail, split, isNumeral⟩ := Piece.digits_cuts isDigit read
    rw [longest_number isSign isDigit ⟨tail, split.symm⟩ isNumeral
      fun other leads isOther => length_le_digits read isOther leads]
    have stops : ((sign ++ first :: rest).drop (sign ++ text).length).head?.any Char.isDigit =
        false := by
      have behind := notDigit_behind_digits read
      rw [split, List.drop_left] at behind
      rw [split, ← List.append_assoc, List.drop_left]
      cases tail with
      | nil => rfl
      | cons d tail => exact behind d rfl
    simp only [stops, Bool.and_false, Bool.false_eq_true, if_false, ofPiece]
    rw [List.length_append]

theorem ofPiece_readWord (starts : Text.isNameStart first = true)
    (notBreak : startsBreak (first :: rest) = false)
    (notQuote : (first == '\x22' || first == '\x27') = false) :
    ofPiece (Piece.readWord first rest) = some (take signed first rest) := by
  have notMinus : first ≠ '-' := Text.ne_of_isNameStart starts (by decide)
  unfold take Piece.readWord
  rw [if_neg (by simp [notBreak]), if_neg (by simp [notQuote]),
    longest_number_eq_none (Text.isDigit_eq_false_of_isNameStart starts)
      (fun isMinus => absurd isMinus notMinus),
    longest_word starts]
  rfl

theorem ofPiece_readSymbol (notDigit : first.isDigit = false)
    (notSign : first = '-' → signed = true → ∀ d ∈ rest.head?, d.isDigit = false)
    (notStart : Text.isNameStart first = false) (notBreak : startsBreak (first :: rest) = false)
    (notQuote : (first == '\x22' || first == '\x27') = false) :
    ofPiece (Piece.readSymbol first rest) = some (take signed first rest) := by
  unfold take Piece.readSymbol
  rw [if_neg (by simp [notBreak]), if_neg (by simp [notQuote]),
    longest_number_eq_none notDigit notSign, longest_word_eq_none notStart, longest_symbol]
  cases two : rest.head?.bind (Symbol.ofTwo? first) with
  | some mark =>
    obtain ⟨second, -, isTwo⟩ := Option.bind_eq_some_iff.mp two
    simp [ofPiece, Symbol.spelling_of_ofTwo? isTwo]
  | none =>
    cases one : Symbol.ofOne? first with
    | some mark => simp [ofPiece, Symbol.spelling_of_ofOne? one]
    | none => simp [ofPiece]

/-- The piece that is read at a place behind spaces and comments is what the greedy reading takes
there. -/
theorem ofPiece_read (notSpace : first ≠ ' ') (notHash : first ≠ '#') :
    ofPiece (Piece.read signed first rest) = some (take signed first rest) := by
  by_cases isBreak : startsBreak (first :: rest) = true
  · unfold take
    rw [if_pos isBreak]
    rw [startsBreak_cons, Bool.or_eq_true, Bool.and_eq_true, beq_iff_eq, beq_iff_eq, beq_iff_eq]
      at isBreak
    rcases isBreak with rfl | ⟨rfl, feeds⟩
    · rfl
    · obtain ⟨others, rfl⟩ := List.head?_eq_some_iff.mp feeds
      rfl
  have notBreak := Bool.eq_false_iff.mpr isBreak
  by_cases isQuote : first = '\x22' ∨ first = '\x27'
  · have reads : Piece.read signed first rest = Piece.readString first rest := by
      rcases isQuote with rfl | rfl <;> rfl
    rw [reads, ofPiece_readString isQuote]
  have notQuote : (first == '\x22' || first == '\x27') = false := by simpa using isQuote
  rw [Piece.read_eq notSpace notHash (by rw [← startsBreak_cons, notBreak]) isQuote]
  by_cases isDigit : first.isDigit = true
  · rw [if_pos isDigit]
    exact ofPiece_readNumber (.inl rfl) isDigit rfl notBreak notQuote
  rw [if_neg isDigit]
  by_cases starts : Text.isNameStart first = true
  · rw [if_pos starts]
    exact ofPiece_readWord starts notBreak notQuote
  rw [if_neg starts]
  have notDigit := Bool.eq_false_iff.mpr isDigit
  have notStart := Bool.eq_false_iff.mpr starts
  by_cases isMinus : first = '-'
  · subst isMinus
    cases rest with
    | nil => exact ofPiece_readSymbol notDigit (by simp) notStart notBreak notQuote
    | cons d more =>
      rw [Piece.readMark_minus]
      by_cases isSigned : (d.isDigit && signed) = true
      · rw [if_pos isSigned]
        rw [Bool.and_eq_true] at isSigned
        exact ofPiece_readNumber (.inr ⟨rfl, isSigned.2⟩) isSigned.1 rfl notBreak notQuote
      · rw [if_neg isSigned]
        refine ofPiece_readSymbol notDigit (fun _ allowed => ?_) notStart notBreak notQuote
        simpa [allowed] using isSigned
  · rw [Piece.readMark_of_ne isMinus]
    exact ofPiece_readSymbol notDigit (fun minus => absurd minus isMinus) notStart notBreak notQuote

/-- A piece that is no gap is what the greedy reading takes. -/
theorem take_of_read {outcome : Except Fault (Lexeme × Nat)}
    (gives : ofPiece (Piece.read signed first rest) = some outcome) :
    first ≠ ' ' ∧ first ≠ '#' ∧ take signed first rest = outcome := by
  have notSpace : first ≠ ' ' := by
    rintro rfl
    contradiction
  have notHash : first ≠ '#' := by
    rintro rfl
    contradiction
  rw [ofPiece_read notSpace notHash] at gives
  exact ⟨notSpace, notHash, Option.some.inj gives⟩

/-! ## Texts -/

theorem allowsSign_eq (last : Option Kind) : allowsSign last = !last.any Kind.endsOperand := by
  cases last with
  | none => rfl
  | some kind =>
    cases kind with
    | keyword word => cases word <;> rfl
    | symbol mark => cases mark <;> rfl
    | _ => rfl

theorem behindComment_eq {body : List Char} (isComment : Comment body rest) :
    behindComment (body ++ rest) = rest := by
  induction body with
  | nil =>
    rcases isComment.ends with rfl | isBreak
    · rfl
    · cases rest with
      | nil => rfl
      | cons c rest =>
        rw [List.nil_append, behindComment, if_pos isBreak]
  | cons c body ih =>
    have inside : startsBreak (c :: (body ++ rest)) = false :=
      isComment.open_ [] (c :: body) rfl (List.cons_ne_nil c body)
    rw [List.cons_append, behindComment, if_neg (by rw [inside]; exact Bool.false_ne_true)]
    refine ih ⟨?_, isComment.ends⟩
    intro front back split filled
    exact isComment.open_ (c :: front) back (by rw [split, List.cons_append]) filled

theorem behindGap_of_startsBreak (isBreak : text = [] ∨ startsBreak text = true) :
    behindGap text = text := by
  unfold behindGap
  split
  · rcases isBreak with empty | isBreak <;> contradiction
  · rcases isBreak with empty | isBreak <;> contradiction
  · rfl

theorem behindGap_append {width : Nat} {gap : List Char} (cuts : (Piece.gap width).Cuts gap rest) :
    behindGap (gap ++ rest) = behindGap rest := by
  cases cuts with
  | space => rfl
  | comment isComment =>
    rw [behindGap_of_startsBreak isComment.ends]
    exact behindComment_eq isComment

theorem behindGap_cons (notSpace : first ≠ ' ') (notHash : first ≠ '#') (rest : List Char) :
    behindGap (first :: rest) = first :: rest := by
  unfold behindGap
  split
  · rename_i isSpace
    exact absurd (List.cons.inj isSpace).1 notSpace
  · rename_i isHash
    exact absurd (List.cons.inj isHash).1 notHash
  · rfl

theorem read_of_behindGap_eq_nil (behind : behindGap text = []) :
    read last text =
      ((if last.all (· == .newline) then [] else [⟨.newline, "", ""⟩]) ++ [⟨.endOfInput, "", ""⟩],
        none) := by
  unfold read
  split
  · rfl
  · rename_i first rest taken
    rw [behind] at taken
    contradiction

theorem read_of_behindGap_eq_cons (behind : behindGap text = first :: rest) :
    read last text =
      match take (allowsSign last) first rest with
      | .error cause => ([], some (cause, first :: rest))
      | .ok (word, width) =>
        (word :: (read (some word.kind) (rest.drop (width - 1))).1,
          (read (some word.kind) (rest.drop (width - 1))).2) := by
  rw [read]
  split
  · rename_i taken
    rw [behind] at taken
    contradiction
  · rename_i c others taken
    rw [behind] at taken
    obtain ⟨rfl, rfl⟩ := List.cons.inj taken
    rfl

/-- What is read depends only on what stands behind spaces and comments. -/
theorem read_congr {other : List Char} (same : behindGap text = behindGap other) :
    read last text = read last other := by
  cases behind : behindGap other with
  | nil =>
    rw [read_of_behindGap_eq_nil behind, read_of_behindGap_eq_nil (same.trans behind)]
  | cons first rest =>
    rw [read_of_behindGap_eq_cons behind, read_of_behindGap_eq_cons (same.trans behind)]

end Parlance.Greedy

namespace Parlance

/-- The fault that stops the reading of a text, if one does, and the text from its place on. -/
def Reading.stop (source : List Char) (reading : Reading) : Option (Fault × List Char) :=
  match reading.ending with
  | .finished _ => none
  | .broken failure => some (failure.fault, source.drop failure.span.offset.toNat)

/-- The reading of a text is the greedy one, behind a token of the kind `last` and the text
`before`. -/
def Reading.IsGreedy (reading : Reading) (last : Option Kind) (before text : List Char) : Prop :=
  (reading.allTokens.map Token.lexeme, reading.stop (before ++ text)) = Greedy.read last text

theorem Reading.allTokens_close (last : Option Kind) (here : Position) :
    (close last here).allTokens =
      (if last.all (· == .newline) then [] else [⟨.newline, "", "", .point here⟩]) ++
        [.endOfInput (.point here)] := by
  cases last with
  | none => rfl
  | some kind => cases kind <;> rfl

theorem Reading.isGreedy_close (last : Option Kind) (here : Position) (before : List Char) :
    (close last here).IsGreedy last before [] := by
  unfold IsGreedy
  rw [Greedy.read_of_behindGap_eq_nil rfl, allTokens_close]
  split <;> rfl

theorem Reading.IsGreedy.cons {reading : Reading} {last : Option Kind}
    {before spelling rest : List Char} {first : Char} {token : Token}
    (taken : Greedy.take (Greedy.allowsSign last) first (spelling ++ rest) =
      .ok (token.lexeme, (first :: spelling).length)) (notSpace : first ≠ ' ')
    (notHash : first ≠ '#')
    (isGreedy : reading.IsGreedy (some token.kind) (before ++ first :: spelling) rest) :
    (Reading.cons token reading).IsGreedy last before (first :: spelling ++ rest) := by
  unfold IsGreedy at isGreedy ⊢
  rw [List.cons_append, Greedy.read_of_behindGap_eq_cons (Greedy.behindGap_cons notSpace notHash _),
    taken]
  have behind : (spelling ++ rest).drop ((first :: spelling).length - 1) = rest := by
    rw [List.length_cons, Nat.add_sub_cancel, List.drop_left]
  have whole : before ++ first :: (spelling ++ rest) = before ++ first :: spelling ++ rest := by
    rw [List.append_assoc, List.cons_append]
  dsimp only
  rw [behind, Token.lexeme_kind, ← isGreedy, whole, allTokens_cons, List.map_cons]
  rfl

theorem Reading.readOn_isGreedy (last : Option Kind) (before text : List Char) :
    (readOn last (Position.start.afterAll before) 0 text).IsGreedy last before text := by
  have read := readOn_byPieces last (Position.start.afterAll before) text
  generalize readOn last (Position.start.afterAll before) 0 text = reading at read ⊢
  generalize isHere : Position.start.afterAll before = here at read
  induction read generalizing before with
  | @ended last here => exact isGreedy_close last here before
  | @fault last here first others cause broken =>
    obtain ⟨notSpace, notHash, taken⟩ := Greedy.take_of_read (by rw [broken]; rfl)
    unfold IsGreedy
    rw [Greedy.read_of_behindGap_eq_cons (Greedy.behindGap_cons notSpace notHash _),
      Greedy.allowsSign_eq, taken, ← isHere, Position.afterAll_start]
    have place : (before ++ first :: others).drop ((before.length : Int)).toNat =
        first :: others := by
      rw [Int.toNat_natCast, List.drop_left]
    exact congrArg (fun behind => ([], some (cause, behind))) place
  | @gap last here first front rest reading _ cuts _ isGreedy =>
    -- A gap changes neither the lexemes nor whether a sign is allowed behind it.
    have behind := isGreedy (before ++ first :: front) (by rw [← isHere, Position.afterAll_append])
    unfold IsGreedy at behind ⊢
    rw [Greedy.read_congr (Greedy.behindGap_append cuts), ← behind, List.append_assoc]
  | lineBreak isBreak _ _ isGreedy =>
    obtain ⟨notSpace, notHash, taken⟩ := Greedy.take_of_read (by rw [isBreak]; rfl)
    rw [← Greedy.allowsSign_eq] at taken
    exact .cons taken notSpace notHash (isGreedy _ (by rw [← isHere, Position.afterAll_append]))
  | word isWord _ _ isGreedy =>
    obtain ⟨notSpace, notHash, taken⟩ := Greedy.take_of_read (by rw [isWord]; rfl)
    rw [← Greedy.allowsSign_eq] at taken
    exact .cons taken notSpace notHash (isGreedy _ (by rw [← isHere, Position.afterAll_append]))

/-! ## Tokens in their text -/

/-- Where a token of a text comes from: it is read at its offset, or it closes the text. -/
inductive Token.ReadIn (token : Token) (source : List Char) : Prop where
  | word
      (signed : Bool) (before : List Char) (first : Char) (others : List Char) (width : Nat)
      (split : source = before ++ first :: others)
      (offset : token.span.offset = (before.length : Int))
      (read : Piece.read signed first others = .word width token.kind token.text token.quote)
  | lineBreak
      (signed : Bool) (before : List Char) (first : Char) (others : List Char) (width : Nat)
      (split : source = before ++ first :: others)
      (offset : token.span.offset = (before.length : Int))
      (isBreak : token.kind = .newline)
      (read : Piece.read signed first others = .lineBreak width)
  | closing
      (offset : token.span.offset = (source.length : Int))
      (isClosing : token.kind = .newline ∨ token.kind = .endOfInput)

theorem Reading.readOn_readIn (last : Option Kind) (before text : List Char) :
    ∀ token ∈ (readOn last (Position.start.afterAll before) 0 text).allTokens,
      token.ReadIn (before ++ text) := by
  have read := readOn_byPieces last (Position.start.afterAll before) text
  generalize readOn last (Position.start.afterAll before) 0 text = reading at read ⊢
  generalize isHere : Position.start.afterAll before = here at read
  induction read generalizing before with
  | @ended last here =>
    intro token member
    have place : token.span = .point here ∧
        (token.kind = .newline ∨ token.kind = .endOfInput) := by
      rw [allTokens_close] at member
      split at member
      · rw [List.mem_singleton.mp member]
        exact ⟨rfl, .inr rfl⟩
      · rcases List.mem_cons.mp member with rfl | member
        · exact ⟨rfl, .inl rfl⟩
        · rw [List.mem_singleton.mp member]
          exact ⟨rfl, .inr rfl⟩
    rw [← isHere, Position.afterAll_start] at place
    refine .closing ?_ place.2
    rw [place.1, List.append_nil]
    rfl
  | fault =>
    intro token member
    cases member
  | @gap last here first front rest reading _ _ _ readIn =>
    have behind := readIn (before ++ first :: front) (by rw [← isHere, Position.afterAll_append])
    rwa [List.append_assoc] at behind
  | @lineBreak last here first front rest reading isBreak _ _ readIn =>
    have behind := readIn (before ++ first :: front) (by rw [← isHere, Position.afterAll_append])
    rw [List.append_assoc] at behind
    rw [allTokens_cons, List.forall_mem_cons, ← isHere, Position.afterAll_start]
    exact ⟨.lineBreak _ before first (front ++ rest) _ rfl rfl rfl isBreak, behind⟩
  | @word last here word first front rest reading isWord _ _ readIn =>
    have behind := readIn (before ++ first :: front) (by rw [← isHere, Position.afterAll_append])
    rw [List.append_assoc] at behind
    rw [allTokens_cons, List.forall_mem_cons, ← isHere, Position.afterAll_start]
    exact ⟨.word _ before first (front ++ rest) _ rfl rfl isWord, behind⟩

theorem Greedy.longest_of_take {signed : Bool} {first : Char} {rest : List Char} {word : Lexeme}
    {width : Nat} (taken : take signed first rest = .ok (word, width))
    (isNumber : word.kind = .number) :
    longest (Greedy.isNumber signed) (first :: rest) = some word.text.toList := by
  unfold take at taken
  split at taken
  · cases taken
    contradiction
  split at taken
  · split at taken
    · cases taken
      contradiction
    · contradiction
  split at taken
  · rename_i text isLongest
    split at taken
    · contradiction
    · cases taken
      rw [isLongest, String.toList_ofList]
  · split at taken
    · cases taken
      exact absurd isNumber (Kind.ofWord_ne _).1
    · split at taken
      · cases taken
        contradiction
      · contradiction

theorem Greedy.isNumber_append {signed : Bool} {text : List Char} {d : Char}
    (isNumber : Greedy.isNumber signed text = true) (noPoint : '.' ∉ text)
    (isDigit : d.isDigit = true) :
    Greedy.isNumber signed (text ++ ['.', d]) = true := by
  obtain ⟨sign, body, rfl, isSign, isNumeral⟩ := isNumber_iff.mp isNumber
  cases isNumeral with
  | mk isFirst areDigits noZero isFraction =>
    rename_i first whole fraction
    cases isFraction with
    | none =>
      have longer : Numeral (first :: (whole ++ ['.', d])) :=
        .mk isFirst areDigits noZero (.some isDigit (by simp))
      exact isNumber_iff.mpr ⟨sign, first :: (whole ++ ['.', d]), by simp, isSign, longer⟩
    | some => simp at noPoint

/-- An integer has no point and digit directly behind it. -/
def Token.EndsNumber (token : Token) (source : List Char) : Prop :=
  token.kind = .number → '.' ∉ token.text.toList → ∀ d rest,
    source.drop (token.span.offset.toNat + token.text.toList.length) = '.' :: d :: rest →
      d.isDigit = false

/-- A token that begins with the characters of a reserved word and one that continues a name is the
name with all characters that continue it. -/
def Token.EndsWord (token : Token) (source : List Char) : Prop :=
  ∀ entry ∈ Kind.reserved, ∀ c rest,
    source.drop token.span.offset.toNat = entry.1.toList ++ c :: rest →
      Text.isNameContinue c = true →
        token.kind = .name ∧
          token.text.toList = entry.1.toList ++ (c :: rest).takeWhile Text.isNameContinue

theorem Token.ReadIn.endsNumber {token : Token} {source : List Char}
    (readIn : token.ReadIn source) :
    token.EndsNumber source := by
  intro isNumber noPoint d rest behind
  cases readIn with
  | word signed before first others width split offset read =>
    obtain ⟨-, -, taken⟩ := Greedy.take_of_read (by rw [read]; rfl)
    have isLongest : Greedy.longest (Greedy.isNumber signed) (first :: others) =
        some token.text.toList := Greedy.longest_of_take taken isNumber
    rcases Greedy.longest_cases (Greedy.isNumber signed) (first :: others) with
      ⟨text, isText, leads, member, greatest⟩ | nothing
    · rw [isLongest] at isText
      obtain rfl := Option.some.inj isText
      rw [offset, Int.toNat_natCast, split, ← List.drop_drop, List.drop_left] at behind
      rw [Bool.eq_false_iff]
      intro isDigit
      have longer : token.text.toList ++ ['.', d] <+: first :: others := by
        obtain ⟨more, same⟩ := leads
        rw [← same, List.drop_left] at behind
        exact ⟨rest, by rw [← same, behind, List.append_assoc]; rfl⟩
      have atMost := greatest _ longer (Greedy.isNumber_append member noPoint isDigit)
      rw [List.length_append, List.length_cons] at atMost
      omega
    · rw [nothing.1] at isLongest
      contradiction
  | lineBreak _ _ _ _ _ _ _ isBreak =>
    rw [isBreak] at isNumber
    contradiction
  | closing _ isClosing =>
    rw [isNumber] at isClosing
    simp at isClosing

theorem Kind.ofWord_of_append {entry : String × Kind} {c : Char} {more : List Char}
    (member : entry ∈ reserved) :
    ofWord (String.ofList (entry.1.toList ++ c :: more)) = .name := by
  have apart : reserved.all (fun shorter => reserved.all fun longer =>
      !(shorter.1.toList.isPrefixOf longer.1.toList) ||
        shorter.1.toList.length == longer.1.toList.length) = true := by
    decide +kernel
  have notListed : reserved.lookup (String.ofList (entry.1.toList ++ c :: more)) = none := by
    rw [List.lookup_eq_none_iff]
    intro other isOther
    rw [bne_iff_ne]
    intro same
    have inside := List.all_eq_true.mp (List.all_eq_true.mp apart entry member) other isOther
    have leads : entry.1.toList.isPrefixOf (entry.1.toList ++ c :: more) = true :=
      List.isPrefixOf_iff_prefix.mpr (List.prefix_append _ _)
    rw [← same, String.toList_ofList, leads] at inside
    simp at inside
  rw [ofWord, notListed]
  rfl

theorem Token.ReadIn.endsWord {token : Token} {source : List Char} (readIn : token.ReadIn source) :
    token.EndsWord source := by
  intro entry member c rest behind continues
  have areWords : Kind.reserved.all (fun entry => Greedy.isWord entry.1.toList) = true := by
    decide +kernel
  have isWord := List.all_eq_true.mp areWords entry member
  obtain ⟨first, tail, word⟩ : ∃ first tail, entry.1.toList = first :: tail :=
    List.exists_cons_of_ne_nil (by rintro empty; rw [empty] at isWord; contradiction)
  rw [word, Greedy.isWord, Bool.and_eq_true, List.all_eq_true] at isWord
  obtain ⟨starts, areInside⟩ := isWord
  have reads : ∀ signed, Piece.read signed first (tail ++ c :: rest) =
      Piece.readWord first (tail ++ c :: rest) := fun signed =>
    Piece.read_of_isNameStart starts (tail ++ c :: rest)
  have whole : first :: (tail ++ c :: rest).takeWhile Text.isNameContinue =
      entry.1.toList ++ c :: rest.takeWhile Text.isNameContinue := by
    rw [List.takeWhile_append_of_pos areInside, List.takeWhile_cons_of_pos continues, word,
      List.cons_append]
  rw [word, List.cons_append] at behind
  cases readIn with
  | word signed before initial others width split offset read =>
    rw [offset, Int.toNat_natCast, split, List.drop_left] at behind
    obtain ⟨rfl, rfl⟩ := List.cons.inj behind
    rw [reads, Piece.readWord, whole] at read
    obtain ⟨-, kind, text, -⟩ := Piece.word.inj read
    rw [Kind.ofWord_of_append member] at kind
    rw [← text, String.toList_ofList, List.takeWhile_cons_of_pos continues]
    exact ⟨kind.symm, rfl⟩
  | lineBreak signed before initial others width split offset _ read =>
    rw [offset, Int.toNat_natCast, split, List.drop_left] at behind
    obtain ⟨rfl, rfl⟩ := List.cons.inj behind
    rw [reads] at read
    contradiction
  | closing offset _ =>
    rw [offset, Int.toNat_natCast, List.drop_length] at behind
    contradiction

/-- The tokens of a text are those of the greedy reading, up to the end of the text or to the fault
that stops both at the same place. So a reserved word that goes on as a name is one name, and no
integer has a point and a digit directly behind it. -/
theorem Reading.ofText_reads_greedily (source : String) :
    ((ofText source).allTokens.map Token.lexeme, (ofText source).stop source.toList) =
        Greedy.read none source.toList ∧
      ∀ token ∈ (ofText source).allTokens,
        token.EndsWord source.toList ∧ token.EndsNumber source.toList := by
  refine ⟨readOn_isGreedy none [] source.toList, ?_⟩
  intro token member
  have readIn := readOn_readIn none [] source.toList token member
  exact ⟨readIn.endsWord, readIn.endsNumber⟩

end Parlance
