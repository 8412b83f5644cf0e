import Parlance.Proofs.Tint.Agreement
import Parlance.Proofs.Tint.Words

/-!
Contract: the words of a text and the pieces they get.

Owns: which pieces the reserved words and the names of a text get if the text is read without a fault
(`Tint.Paints`), and when a text is tinted without errors and with the same words. A reserved word is
a keyword unless a digit stands directly before it, a name is a name if it is one that the rules know
(`Tint.paintsName`), and errors are found in the other names only.
-/

namespace Parlance

def Token.isReserved (token : Token) : Bool :=
  match token.kind with
  | .keyword _ | .boolean | .nil => true
  | _ => false

namespace Tint

/-! ## Words and their pieces -/

/-- A piece with the place and the characters of a token. -/
def Piece.Covers (piece : Piece) (token : Token) : Prop :=
  piece.offset = token.span.offset.toNat ∧ piece.text = token.text.toList

/-- Whether a digit stands directly before a token. -/
def behindDigit (source : List Char) (token : Token) : Bool :=
  (source.take token.span.offset.toNat).getLast?.any Char.isDigit

/-- Whether a name token is tinted as one name. -/
def paints (source : List Char) (token : Token) : Bool :=
  paintsName (behindDigit source token) token.text.toList

/-- The pieces that the words of a text get. -/
structure Paints (pieces : List Piece) (tokens : List Token) (source : List Char) : Prop where
  reserved : ∀ token ∈ tokens, token.isReserved = true → ∃ piece ∈ pieces, piece.Covers token ∧
    (if behindDigit source token then piece.tint.isName else piece.tint.isKeyword) = true
  names : ∀ token ∈ tokens, token.kind = .name → ∃ piece ∈ pieces,
    piece.offset = token.span.offset.toNat ∧
      (piece.Covers token ∧ piece.tint.isName = true ↔ paints source token = true)
  errors : ∀ piece ∈ pieces, piece.tint = .error → ∃ token ∈ tokens,
    token.kind = .name ∧ paints source token = false ∧
      token.span.offset.toNat ≤ piece.offset ∧
        piece.offset < token.span.offset.toNat + token.text.toList.length

section Steps

variable {own pieces : List Piece} {token : Token} {tokens : List Token} {source : List Char}

theorem Paints.append (noError : ∀ piece ∈ own, piece.tint ≠ .error)
    (paints : Paints pieces tokens source) :
    Paints (own ++ pieces) tokens source := by
  refine ⟨?_, ?_, ?_⟩
  · intro token member isReserved
    obtain ⟨piece, isPiece, covers⟩ := paints.reserved token member isReserved
    exact ⟨piece, List.mem_append_right own isPiece, covers⟩
  · intro token member isName
    obtain ⟨piece, isPiece, place⟩ := paints.names token member isName
    exact ⟨piece, List.mem_append_right own isPiece, place⟩
  · intro piece member isError
    rcases List.mem_append.mp member with member | member
    · exact absurd isError (noError piece member)
    · exact paints.errors piece member isError

theorem Paints.cons
    (reserved : token.isReserved = true → ∃ piece ∈ own ++ pieces, piece.Covers token ∧
      (if behindDigit source token then piece.tint.isName else piece.tint.isKeyword) = true)
    (named : token.kind = .name → ∃ piece ∈ own ++ pieces,
      piece.offset = token.span.offset.toNat ∧
        (piece.Covers token ∧ piece.tint.isName = true ↔ paints source token = true))
    (errors : ∀ piece ∈ own, piece.tint = .error → token.kind = .name ∧
      paints source token = false ∧ token.span.offset.toNat ≤ piece.offset ∧
        piece.offset < token.span.offset.toNat + token.text.toList.length)
    (further : Paints pieces tokens source) :
    Paints (own ++ pieces) (token :: tokens) source := by
  refine ⟨?_, ?_, ?_⟩
  · intro other member isReserved
    rcases List.mem_cons.mp member with rfl | member
    · exact reserved isReserved
    · obtain ⟨piece, isPiece, covers⟩ := further.reserved other member isReserved
      exact ⟨piece, List.mem_append_right own isPiece, covers⟩
  · intro other member isName
    rcases List.mem_cons.mp member with rfl | member
    · exact named isName
    · obtain ⟨piece, isPiece, place⟩ := further.names other member isName
      exact ⟨piece, List.mem_append_right own isPiece, place⟩
  · intro piece member isError
    rcases List.mem_append.mp member with member | member
    · exact ⟨token, List.mem_cons_self, errors piece member isError⟩
    · obtain ⟨other, isOther, place⟩ := further.errors piece member isError
      exact ⟨other, List.mem_cons_of_mem token isOther, place⟩

theorem Paints.pass (notReserved : token.isReserved = false) (notName : token.kind ≠ .name)
    (further : Paints pieces tokens source) :
    Paints pieces (token :: tokens) source := by
  have step : Paints ([] ++ pieces) (token :: tokens) source := by
    refine .cons (fun isReserved => ?_) (fun isName => absurd isName notName)
      (List.forall_mem_nil _) further
    rw [notReserved] at isReserved
    contradiction
  exact step

end Steps

variable {word : Lexeme} {initial : Char} {front rest : List Char}

/-! ## Surroundings of words -/

/-- A word character at the front of a text continues names. -/
def Sound (text : List Char) : Prop :=
  ∀ c ∈ text.head?, Text.isWordChar c = true → Text.isNameContinue c = true

/-- A word character directly before a name is a digit. -/
def Fits (before : Option Char) (text : List Char) : Prop :=
  ∀ c ∈ before, Text.isWordChar c = true → ∀ d ∈ text.head?, Text.isNameStart d = true →
    c.isDigit = true

theorem isWordChar_of_symbol {mark : Symbol} :
    ∀ c ∈ mark.spelling.toList, Text.isWordChar c = false := by
  have checked : Symbol.all.all (fun mark => mark.spelling.toList.all fun c =>
      !Text.isWordChar c) = true := by decide +kernel
  have isListed : mark ∈ Symbol.all := by cases mark <;> decide
  intro c member
  simpa using List.all_eq_true.mp (List.all_eq_true.mp checked mark isListed) c member

theorem sound_of_spelled {spelling : List Char} (spelled : word.Spelled spelling)
    (rest : List Char) :
    Sound (spelling ++ rest) := by
  intro c isHead isWordChar
  cases spelled with
  | word starts =>
    obtain rfl : _ = c := by simpa using isHead
    exact Text.isNameContinue_of_isNameStart _ starts
  | number isSign isNumeral =>
    obtain ⟨d, more, rfl, isDigit⟩ := Greedy.numeral_begins isNumeral
    rcases isSign with rfl | rfl
    · obtain rfl : d = c := by simpa using isHead
      exact Text.isNameContinue_of_isDigit isDigit
    · obtain rfl : '-' = c := by simpa using isHead
      revert isWordChar
      decide
  | string isQuote =>
    obtain rfl : _ = c := by simpa using isHead
    rcases isQuote with rfl | rfl <;> revert isWordChar <;> decide
  | symbol mark =>
    have stretch : Stretch .operator mark.spelling.toList := .symbol (.inl rfl)
    obtain ⟨initial, more, spelling⟩ := List.exists_cons_of_ne_nil stretch.filled
    rw [spelling] at isHead
    obtain rfl : initial = c := by simpa using isHead
    rw [isWordChar_of_symbol initial (by rw [spelling]; exact List.mem_cons_self)] at isWordChar
    contradiction

theorem fits_of_spelled {signed : Bool} (read : Parlance.Piece.read signed initial (front ++ rest) =
      .word (initial :: front).length word.kind word.text word.quote)
    (spelled : word.Spelled (initial :: front)) (before : List Char) :
    Fits (before ++ initial :: front).getLast? rest := by
  intro c isLast isWordChar d isHead starts
  rw [List.getLast?_append_of_ne_nil _ (List.cons_ne_nil initial front)] at isLast
  have member : c ∈ initial :: front := List.mem_of_getLast? isLast
  generalize same : initial :: front = spelling at spelled isLast member
  cases spelled with
  | word begins =>
    obtain ⟨rfl, rfl⟩ := List.cons.inj same
    have continues := Text.isNameContinue_of_isNameStart d starts
    rw [Piece.clear_of_read read begins d isHead] at continues
    contradiction
  | number isSign isNumeral =>
    rcases List.mem_append.mp member with member | member
    · rcases isSign with rfl | rfl
      · cases member
      · have notWord : Text.isWordChar '-' = false := by decide
        rw [List.mem_singleton.mp member, notWord] at isWordChar
        contradiction
    · rcases isNumeral.plain.2 c member with rfl | isDigit
      · revert isWordChar
        decide
      · exact isDigit
  | string isQuote free =>
    rename_i quote body
    have final : (quote :: (body ++ [quote])).getLast? = some quote := by
      rw [← List.cons_append]
      exact List.getLast?_concat
    obtain rfl : quote = c := Option.some.inj (final.symm.trans isLast)
    rcases isQuote with rfl | rfl <;> revert isWordChar <;> decide
  | symbol mark =>
    rw [isWordChar_of_symbol c member] at isWordChar
    contradiction

/-- No name follows directly behind a character that is no word character. -/
theorem Fits.of_last {c : Char} (notWord : Text.isWordChar c = false)
    (before front rest : List Char) :
    Fits (before ++ (front ++ [c])).getLast? rest := by
  intro d isLast isWordChar
  rw [← List.append_assoc, List.getLast?_concat] at isLast
  rw [← Option.some.inj isLast, notWord] at isWordChar
  contradiction

theorem notStart_of_break (ends : rest = [] ∨ startsBreak rest = true) :
    ∀ d ∈ rest.head?, Text.isNameStart d = false := by
  intro d isHead
  rcases ends with rfl | isBreak
  · contradiction
  · unfold startsBreak at isBreak
    split at isBreak
    · obtain rfl : '\n' = d := by simpa using isHead
      rfl
    · obtain rfl : '\r' = d := by simpa using isHead
      rfl
    · contradiction

theorem Fits.of_break (ends : rest = [] ∨ startsBreak rest = true) (before : Option Char) :
    Fits before rest := by
  intro c _ _ d isHead starts
  rw [notStart_of_break ends d isHead] at starts
  contradiction

theorem isFaint_of_isNameStart {c : Char} (starts : Text.isNameStart c = true) :
    isFaint c = false := by
  have notBlank := Text.isBlank_eq_false (Text.isNameContinue_of_isNameStart c starts)
  have notPoint := Text.ne_of_isNameStart starts (show Text.isNameStart '.' = false by decide)
  simp [isFaint, notBlank, notPoint, Text.isDigit_eq_false_of_isNameStart starts]

/-- A token that begins like a name is a word. -/
theorem lexeme_of_isNameStart (spelled : word.Spelled (initial :: front))
    (starts : Text.isNameStart initial = true) :
    word = ⟨Kind.ofWord (String.ofList (initial :: front)), String.ofList (initial :: front), ""⟩ := by
  generalize same : initial :: front = spelling at spelled
  cases spelled with
  | word => rfl
  | number isSign isNumeral =>
    obtain ⟨d, more, rfl, isDigit⟩ := Greedy.numeral_begins isNumeral
    rcases isSign with rfl | rfl
    · obtain ⟨rfl, -⟩ := List.cons.inj same
      rw [Text.isDigit_eq_false_of_isNameStart starts] at isDigit
      contradiction
    · obtain ⟨rfl, -⟩ := List.cons.inj same
      contradiction
  | string isQuote =>
    obtain ⟨rfl, -⟩ := List.cons.inj same
    rcases isQuote with rfl | rfl <;> contradiction
  | symbol mark =>
    have apart := of_symbol_head (fun c => !Text.isNameStart c) (by decide +kernel)
      (isHead_of_spelling same.symm)
    rw [starts] at apart
    contradiction

theorem kind_of_not_isNameStart (spelled : word.Spelled (initial :: front))
    (notStart : Text.isNameStart initial = false) (span : Span) :
    Token.isReserved ⟨word.kind, word.text, word.quote, span⟩ = false ∧ word.kind ≠ .name := by
  generalize same : initial :: front = spelling at spelled
  cases spelled with
  | word starts =>
    obtain ⟨rfl, -⟩ := List.cons.inj same
    rw [starts] at notStart
    contradiction
  | _ => exact ⟨rfl, by simp⟩

theorem surrounds_of_read {signed : Bool} {before : Option Char}
    (read : Parlance.Piece.read signed initial (front ++ rest) =
      .word (initial :: front).length word.kind word.text word.quote)
    (starts : Text.isNameStart initial = true) (fits : Fits before (initial :: front ++ rest))
    (sound : Sound rest) :
    Surrounds before rest := by
  have clear := Piece.clear_of_read read starts
  refine ⟨clear, ?_, ?_⟩
  · intro c isHead
    rw [Bool.eq_false_iff]
    intro isWordChar
    have continues := sound c isHead isWordChar
    rw [clear c isHead] at continues
    contradiction
  · cases before with
    | none => rfl
    | some c =>
      rw [Bool.eq_iff_iff]
      constructor
      · intro isWordChar
        exact fits c rfl isWordChar initial rfl starts
      · intro isDigit
        have isNameChar : Rule.isNameChar c = true := by
          rw [Rule.isNameChar, Char.isAlphanum, show c.isDigit = true from isDigit, Bool.or_true]
          rfl
        exact isWordChar_of_isNameChar isNameChar

/-! ## The walk over the words -/

section Walk

variable {before front rest source : List Char} {skip : Nat} {tokens : List Token}
variable {signed : Bool} {initial : Char}

theorem Paints.calm {holds : Tint → Prop} (calm : Calm holds front rest)
    (noError : ∀ tint, holds tint → tint ≠ .error) (faint : Faint skip (front ++ rest))
    (further : ∀ left, Faint left rest → Paints (onward (before ++ front) left rest) tokens source) :
    Paints (onward before skip (front ++ rest)) tokens source := by
  obtain ⟨own, left, same, isFaint, inside⟩ := calm.walk before skip faint.behind
  rw [same]
  exact .append (fun piece member => noError _ (inside piece member).1) (further left isFaint)

variable {span : Span}

theorem behindDigit_eq {kind : Kind} {text quote : String}
    (offset : span.offset = (before.length : Int)) :
    behindDigit (before ++ rest) ⟨kind, text, quote, span⟩ = before.getLast?.any Char.isDigit := by
  unfold behindDigit
  dsimp only
  rw [offset, Int.toNat_natCast, List.take_left]

theorem Paints.ofReserved {name : List Char} (filled : name ≠ [])
    (surrounds : Surrounds before.getLast? rest)
    (reserved : Kind.ofWord (String.ofList name) ≠ .name)
    (offset : span.offset = (before.length : Int))
    (further : Paints (onward (before ++ name) 0 rest) tokens (before ++ (name ++ rest))) :
    Paints (onward before 0 (name ++ rest))
      (⟨Kind.ofWord (String.ofList name), String.ofList name, "", span⟩ :: tokens)
      (before ++ (name ++ rest)) := by
  obtain ⟨tint, same, kind⟩ := first_of_reserved surrounds reserved
  rw [onward_piece filled same, ← List.singleton_append]
  refine .cons (fun _ => ?_) (fun isName => absurd isName reserved) ?_ further
  · refine ⟨⟨before.length, tint, name⟩, List.mem_cons_self, ⟨?_, ?_⟩, ?_⟩
    · exact (congrArg Int.toNat offset).symm
    · exact String.toList_ofList.symm
    · rw [behindDigit_eq offset]
      exact kind
  · intro piece member isError
    rw [List.mem_singleton.mp member] at isError
    subst isError
    split at kind <;> contradiction

/-- A name that the rules know is one piece. -/
theorem Paints.ofPainted {name : List Char} (filled : name ≠ [])
    (surrounds : Surrounds before.getLast? rest) (isName : Kind.ofWord (String.ofList name) = .name)
    (painted : paintsName (before.getLast?.any Char.isDigit) name = true)
    (offset : span.offset = (before.length : Int))
    (further : Paints (onward (before ++ name) 0 rest) tokens (before ++ (name ++ rest))) :
    Paints (onward before 0 (name ++ rest)) (⟨.name, String.ofList name, "", span⟩ :: tokens)
      (before ++ (name ++ rest)) := by
  obtain ⟨tint, same, kind⟩ := first_of_painted surrounds isName painted
  rw [onward_piece filled same, ← List.singleton_append]
  refine .cons (fun isReserved => absurd isReserved Bool.false_ne_true) (fun _ => ?_) ?_ further
  · refine ⟨⟨before.length, tint, name⟩, List.mem_cons_self, (congrArg Int.toNat offset).symm, ?_⟩
    rw [paints, behindDigit_eq offset, String.toList_ofList]
    refine iff_of_true ⟨⟨(congrArg Int.toNat offset).symm, String.toList_ofList.symm⟩, kind⟩ painted
  · intro piece member isError
    rw [List.mem_singleton.mp member] at isError
    subst isError
    contradiction

/-- A name that the rules do not know is not one piece, and may have errors in it. -/
theorem Paints.ofUnpainted (read : Parlance.Piece.read signed initial (front ++ rest) =
      .word (initial :: front).length .name (String.ofList (initial :: front)) "")
    (spelled : Lexeme.Spelled ⟨.name, String.ofList (initial :: front), ""⟩ (initial :: front))
    (surrounds : Surrounds before.getLast? rest)
    (unpainted : paintsName (before.getLast?.any Char.isDigit) (initial :: front) = false)
    (offset : span.offset = (before.length : Int)) (further : ∀ left, Faint left rest →
      Paints (onward (before ++ initial :: front) left rest) tokens
        (before ++ (initial :: front ++ rest))) :
    Paints (onward before 0 (initial :: front ++ rest))
      (⟨.name, String.ofList (initial :: front), "", span⟩ :: tokens)
      (before ++ (initial :: front ++ rest)) := by
  have place : before.length = span.offset.toNat := (congrArg Int.toNat offset).symm
  have start : Faint 0 (initial :: front ++ rest) := by simp [Faint]
  obtain ⟨own, left, same, isFaint, inside⟩ := walk_of_spelled read spelled (by simp) before start
  rw [same]
  refine .cons (fun isReserved => absurd isReserved Bool.false_ne_true) (fun _ => ?_) ?_
    (further left isFaint)
  · rw [← same, List.cons_append, onward_cons, ← List.cons_append]
    refine ⟨_, List.mem_cons_self, place, ?_⟩
    rw [paints, behindDigit_eq offset, String.toList_ofList, unpainted]
    refine iff_of_false ?_ Bool.false_ne_true
    rintro ⟨⟨-, text⟩, isName⟩
    have width : (first before.getLast? (initial :: front ++ rest)).2 =
        (initial :: front).length := by
      obtain ⟨stretch, leads, length, -⟩ :=
        first_stretch before.getLast? (List.cons_ne_nil initial (front ++ rest))
      have taken := congrArg List.length text
      rw [String.toList_ofList] at taken
      have short := leads.length_le
      rw [← List.cons_append] at *
      rw [List.length_take, length, Nat.min_eq_left short] at taken
      rw [length, taken]
    have painted := painted_of_first surrounds (List.cons_ne_nil initial front) isName width
    rw [unpainted] at painted
    contradiction
  · intro piece member isError
    obtain ⟨-, low, high⟩ := inside piece member
    refine ⟨rfl, ?_, ?_, ?_⟩
    · rw [paints, behindDigit_eq offset, String.toList_ofList, unpainted]
    · exact place ▸ low
    · rwa [← place, String.toList_ofList, ← List.length_append]

/-- A token that begins like a name gets the pieces of a word. -/
theorem Paints.ofWord {word : Lexeme} (read : Parlance.Piece.read signed initial (front ++ rest) =
      .word (initial :: front).length word.kind word.text word.quote)
    (spelled : word.Spelled (initial :: front)) (starts : Text.isNameStart initial = true)
    (surrounds : Surrounds before.getLast? rest) (offset : span.offset = (before.length : Int))
    (further : ∀ left, Faint left rest →
      Paints (onward (before ++ initial :: front) left rest) tokens
        (before ++ (initial :: front ++ rest))) :
    Paints (onward before 0 (initial :: front ++ rest))
      (⟨word.kind, word.text, word.quote, span⟩ :: tokens)
      (before ++ (initial :: front ++ rest)) := by
  obtain rfl := lexeme_of_isNameStart spelled starts
  have filled : initial :: front ≠ [] := List.cons_ne_nil initial front
  have atOnce := further 0 (by simp [Faint])
  by_cases isName : Kind.ofWord (String.ofList (initial :: front)) = .name
  · rw [isName] at read spelled ⊢
    cases painted : paintsName (before.getLast?.any Char.isDigit) (initial :: front) with
    | true => exact .ofPainted filled surrounds isName painted offset atOnce
    | false => exact .ofUnpainted read spelled surrounds painted offset further
  · exact .ofReserved filled surrounds isName offset atOnce

/-- A token that does not begin like a name has no errors in it. -/
theorem Paints.ofOther {word : Lexeme} (read : Parlance.Piece.read signed initial (front ++ rest) =
      .word (initial :: front).length word.kind word.text word.quote)
    (spelled : word.Spelled (initial :: front)) (notStart : Text.isNameStart initial = false)
    (faint : Faint skip (initial :: front ++ rest)) (further : ∀ left, Faint left rest →
      Paints (onward (before ++ initial :: front) left rest) tokens source) :
    Paints (onward before skip (initial :: front ++ rest))
      (⟨word.kind, word.text, word.quote, span⟩ :: tokens) source := by
  obtain ⟨notReserved, notName⟩ := kind_of_not_isNameStart spelled notStart span
  refine .pass notReserved notName ?_
  by_cases isString : word.kind = .string
  · generalize initial :: front = spelling at spelled faint further
    cases spelled with
    | string isQuote free =>
      rw [onward_string before isQuote free faint, ← List.singleton_append]
      refine .append (List.forall_mem_singleton.mpr ?_) (further 0 (by simp [Faint]))
      dsimp only
      split <;> simp
    | word => exact absurd isString (Kind.ofWord_ne _).2.1
    | number | symbol => contradiction
  · obtain ⟨own, left, same, isFaint, inside⟩ :=
      walk_of_spelled read spelled isString before faint
    rw [same]
    refine .append (fun piece member isError => ?_) (further left isFaint)
    have starts := (inside piece member).1.2 isError
    rw [notStart] at starts
    contradiction

end Walk

/-- The words of a text get their pieces, from every place on where a token ends or a text begins. -/
theorem paints_readOn (last : Option Kind) (before text : List Char) {span : Span}
    (finished : (Reading.readOn last (Position.start.afterAll before) 0 text).ending =
      .finished span) (fits : Fits before.getLast? text) :
    Paints (onward before 0 text)
      (Reading.readOn last (Position.start.afterAll before) 0 text).tokens (before ++ text) := by
  have read := Reading.readOn_byPieces last (Position.start.afterAll before) text
  generalize Reading.readOn last (Position.start.afterAll before) 0 text = reading
    at read finished ⊢
  generalize isHere : Position.start.afterAll before = here at read
  -- Whether a word is listed depends on the characters around it, so the invariant also says what
  -- the rest of a text begins with (`Sound`) and asks what stands before it (`Fits`).
  suffices invariant : Sound text ∧ ∀ skip, Faint skip text → Fits before.getLast? text →
      Paints (onward before skip text) reading.tokens (before ++ text) from
    invariant.2 0 (by simp [Faint]) fits
  clear fits
  induction read generalizing before with
  | ended =>
    refine ⟨by simp [Sound], fun skip _ _ => ?_⟩
    have nothing : Paints [] [] (before ++ []) := ⟨by simp, by simp, by simp⟩
    rw [onward_nil]
    unfold Reading.close
    split
    · exact nothing
    · exact nothing
    · exact .pass rfl (by simp) nothing
  | fault => cases finished
  | @gap last here initial front rest reading _ cuts _ paints =>
    have behind := (paints (before ++ initial :: front) finished
      (by rw [← isHere, Position.afterAll_append])).2
    rw [List.append_assoc] at behind
    generalize (initial :: front).length = width at cuts
    cases cuts with
    | space =>
      refine ⟨by simp [Sound]; decide, fun skip faint _ => ?_⟩
      refine .calm (calm_blanks (by simp; decide) rest) (fun tint same => by rw [same]; decide)
        faint fun left isFaint => behind left isFaint ?_
      exact .of_last (by decide) before [] rest
    | comment isComment =>
      refine ⟨by simp [Sound]; decide, fun skip faint _ => ?_⟩
      obtain ⟨left, isFaint, same⟩ := onward_comment before isComment
      rw [faint.eq_zero rfl, same, ← List.singleton_append]
      refine .append (List.forall_mem_singleton.mpr (by simp [ofComment])) (behind left isFaint ?_)
      exact .of_break isComment.ends _
  | @lineBreak last here initial front rest reading _ cuts _ paints =>
    have behind := (paints (before ++ initial :: front) finished
      (by rw [← isHere, Position.afterAll_append])).2
    rw [List.append_assoc] at behind
    have places : (∀ c ∈ initial :: front, Text.isBlank c = true) ∧
        Text.isWordChar initial = false ∧ Fits (before ++ initial :: front).getLast? rest := by
      generalize (initial :: front).length = width at cuts
      cases cuts with
      | feed => exact ⟨by simp; decide, by decide, .of_last (by decide) before [] rest⟩
      | returnFeed => exact ⟨by simp; decide, by decide, .of_last (by decide) before ['\r'] rest⟩
    obtain ⟨areBlank, notWord, fits⟩ := places
    refine ⟨?_, fun skip faint _ => ?_⟩
    · intro c isHead isWordChar
      obtain rfl : initial = c := by simpa using isHead
      rw [notWord] at isWordChar
      contradiction
    · exact .pass rfl (by simp) (.calm (calm_blanks areBlank rest)
        (fun tint same => by rw [same]; decide) faint fun left isFaint => behind left isFaint fits)
  | @word last here word initial front rest reading read spelled _ paints =>
    obtain ⟨sound, behind⟩ := paints (before ++ initial :: front) finished
      (by rw [← isHere, Position.afterAll_append])
    rw [List.append_assoc] at behind
    refine ⟨sound_of_spelled spelled rest, fun skip faint fits => ?_⟩
    have further := fun left isFaint =>
      behind left isFaint (fits_of_spelled read spelled before)
    by_cases starts : Text.isNameStart initial = true
    · rw [faint.eq_zero (isFaint_of_isNameStart starts)]
      exact .ofWord read spelled starts (surrounds_of_read read starts fits sound)
        (offset_between isHere.symm (here.afterAll (initial :: front))) further
    · exact .ofOther read spelled (Bool.eq_false_iff.mpr starts) faint further

/-! ## The same words -/

theorem Adjoin.lt {offset : Nat} {front middle back : List Piece} {piece other : Piece}
    (adjoin : Adjoin offset (front ++ piece :: (middle ++ other :: back))) :
    piece.offset < other.offset := by
  obtain ⟨filled, place⟩ := adjoin front piece (middle ++ other :: back) rfl
  have behind := (adjoin (front ++ piece :: middle) other back (by simp)).2
  have positive := List.length_pos_iff.mpr filled
  rw [List.map_append, List.flatten_append, List.length_append, List.map_cons, List.flatten_cons,
    List.length_append] at behind
  omega

theorem Adjoin.unique {offset : Nat} {pieces : List Piece} {piece other : Piece}
    (adjoin : Adjoin offset pieces) (isPiece : piece ∈ pieces) (isOther : other ∈ pieces)
    (same : piece.offset = other.offset) :
    piece = other := by
  obtain ⟨front, back, rfl⟩ := List.append_of_mem isPiece
  rcases List.mem_append.mp isOther with isFront | isBack
  · obtain ⟨before, middle, rfl⟩ := List.append_of_mem isFront
    have earlier : other.offset < piece.offset := Adjoin.lt (by simpa using adjoin)
    omega
  rcases List.mem_cons.mp isBack with isSame | isBack
  · exact isSame.symm
  · obtain ⟨middle, after, rfl⟩ := List.append_of_mem isBack
    have later : piece.offset < other.offset := adjoin.lt
    omega

/-- A text is tinted without errors and with the words of its tokens: every reserved word is one piece
of a keyword, and every name is one piece of a name. -/
structure Faithful (pieces : List Piece) (tokens : List Token) : Prop where
  noError : ∀ piece ∈ pieces, piece.tint ≠ .error
  keywords : ∀ token ∈ tokens, token.isReserved = true →
    ∃ piece ∈ pieces, piece.Covers token ∧ piece.tint.isKeyword = true
  names : ∀ token ∈ tokens, token.kind = .name →
    ∃ piece ∈ pieces, piece.Covers token ∧ piece.tint.isName = true

theorem not_isKeyword_of_isName {tint : Tint} (isName : tint.isName = true) :
    tint.isKeyword = false := by
  revert isName
  cases tint <;> decide

theorem Paints.faithful_iff {pieces : List Piece} {tokens : List Token} {source : List Char}
    (adjoin : Adjoin 0 pieces) (paints : Paints pieces tokens source) :
    Faithful pieces tokens ↔ ∀ token ∈ tokens,
      (token.isReserved = true → behindDigit source token = false) ∧
        (token.kind = .name → Tint.paints source token = true) := by
  constructor
  · intro faithful token member
    constructor
    · intro isReserved
      obtain ⟨piece, isPiece, covers, isKeyword⟩ := faithful.keywords token member isReserved
      obtain ⟨other, isOther, place, kind⟩ := paints.reserved token member isReserved
      obtain rfl := adjoin.unique isPiece isOther (covers.1.trans place.1.symm)
      rw [Bool.eq_false_iff]
      intro isBehind
      rw [if_pos isBehind] at kind
      rw [not_isKeyword_of_isName kind] at isKeyword
      contradiction
    · intro isName
      obtain ⟨piece, isPiece, covers, isKind⟩ := faithful.names token member isName
      obtain ⟨other, isOther, place, painted⟩ := paints.names token member isName
      obtain rfl := adjoin.unique isPiece isOther (covers.1.trans place.symm)
      exact painted.mp ⟨covers, isKind⟩
  · intro known
    refine ⟨?_, ?_, ?_⟩
    · intro piece member isError
      obtain ⟨token, isToken, isName, unpainted, -⟩ := paints.errors piece member isError
      rw [(known token isToken).2 isName] at unpainted
      contradiction
    · intro token member isReserved
      obtain ⟨piece, isPiece, covers, kind⟩ := paints.reserved token member isReserved
      rw [(known token member).1 isReserved, if_neg Bool.false_ne_true] at kind
      exact ⟨piece, isPiece, covers, kind⟩
    · intro token member isName
      obtain ⟨piece, isPiece, -, painted⟩ := paints.names token member isName
      obtain ⟨covers, isKind⟩ := painted.mpr ((known token member).2 isName)
      exact ⟨piece, isPiece, covers, isKind⟩

/-- If a text is read without a fault, its reserved words, its names and its errors are tinted as
`Paints` tells. So it is tinted without errors and with the same words exactly if no reserved word
stands directly behind a digit and every name is one that the rules know. -/
theorem pieces_faithful_iff {source : String} {span : Span}
    (finished : (Reading.ofText source).ending = .finished span) :
    Paints (pieces source) (Reading.ofText source).tokens source.toList ∧
      (Faithful (pieces source) (Reading.ofText source).tokens ↔
        ∀ token ∈ (Reading.ofText source).tokens,
          (token.isReserved = true → behindDigit source.toList token = false) ∧
            (token.kind = .name → paints source.toList token = true)) := by
  have start : Fits [].getLast? source.toList := by simp [Fits]
  have paints := paints_readOn none [] source.toList finished start
  exact ⟨paints, paints.faithful_iff (onward_tiles [] source.toList).2⟩

/-- A word that is reserved without its question mark is cut in two. -/
theorem pieces_cut_question_mark :
    (Reading.ofText "x.nil?").ending = .finished (.point ⟨1, 7, 6⟩) ∧
      ¬Faithful (pieces "x.nil?") (Reading.ofText "x.nil?").tokens := by
  have finished : (Reading.ofText "x.nil?").ending = .finished (.point ⟨1, 7, 6⟩) := by
    decide +kernel
  refine ⟨finished, fun faithful => ?_⟩
  have known := (pieces_faithful_iff finished).2.mp faithful
  revert known
  decide +kernel

end Tint

end Parlance
