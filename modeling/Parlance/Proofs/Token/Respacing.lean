import Parlance.Proofs.Token.Slicing

/-!
Contract: texts that differ only between their words.

Between two words of a line there may be any number of spaces, and before a line break and at the end
of a text also a comment. If the gaps of a text are changed in this way, and no two words that were
apart are joined, the words stay the same. Owns: this relation between texts (`Respaced`), that every
text which is read to its end is related to itself, and that related texts give the same words.
-/

namespace Parlance

/-! ## Gaps -/

/-- Spaces, or nothing. -/
def Blank (gap : List Char) : Prop :=
  ∀ c ∈ gap, c = ' '

/-- What may stand before a line break: spaces, and behind them a comment or nothing. -/
inductive Trailing : List Char → Prop where
  | blank {gap : List Char} (isBlank : Blank gap) :
      Trailing gap
  | comment {gap body : List Char} (isBlank : Blank gap) (noFeed : '\n' ∉ body) :
      Trailing (gap ++ '#' :: body)

def IsLineBreak (spelling : List Char) : Prop :=
  spelling = ['\n'] ∨ spelling = ['\r', '\n']

/-- The two texts have the same words, each with the same characters, and only the gaps between
them differ. A gap within a line does not vanish. The line break that closes a last line at the end
of a text has no characters. -/
inductive Respaced : List Lexeme → List Char → List Char → Prop where
  | ended {gap gap' : List Char} (isGap : Trailing gap) (isGap' : Trailing gap') :
      Respaced [] gap gap'
  | closed {gap gap' : List Char} (isGap : Trailing gap) (isGap' : Trailing gap') :
      Respaced [⟨.newline, "", ""⟩] gap gap'
  | lineBreak {gap gap' spelling text text' : List Char} {words : List Lexeme}
      (isGap : Trailing gap) (isGap' : Trailing gap') (isBreak : IsLineBreak spelling)
      (more : Respaced words text text') :
      Respaced (⟨.newline, "\n", ""⟩ :: words) (gap ++ (spelling ++ text))
        (gap' ++ (spelling ++ text'))
  | word {gap gap' spelling text text' : List Char} {word : Lexeme} {words : List Lexeme}
      (isGap : Blank gap) (isGap' : Blank gap') (kept : gap ≠ [] → gap' ≠ [])
      (spelled : word.Spelled spelling) (more : Respaced words text text') :
      Respaced (word :: words) (gap ++ (spelling ++ text)) (gap' ++ (spelling ++ text'))

theorem Blank.sheltered {gap : List Char} (isBlank : Blank gap) (filled : gap ≠ [])
    (text : List Char) :
    Sheltered (gap ++ text) := by
  obtain ⟨c, gap, rfl⟩ := List.exists_cons_of_ne_nil filled
  intro d isHead
  obtain rfl : c = d := Option.some.inj isHead
  exact .inl (isBlank c (by simp))

theorem Trailing.sheltered {gap : List Char} (isGap : Trailing gap) {text : List Char}
    (sheltered : Sheltered text) :
    Sheltered (gap ++ text) := by
  cases isGap with
  | blank isBlank =>
    cases gap with
    | nil => exact sheltered
    | cons c gap => exact isBlank.sheltered (by simp) text
  | comment isBlank noFeed =>
    rename_i gap body
    cases gap with
    | nil => simp [Sheltered]
    | cons c gap =>
      rw [List.append_assoc]
      exact isBlank.sheltered (by simp) _

theorem IsLineBreak.sheltered {spelling : List Char} (isBreak : IsLineBreak spelling)
    (text : List Char) :
    Sheltered (spelling ++ text) := by
  rcases isBreak with rfl | rfl <;> simp [Sheltered]

/-- Texts that differ only between their words are alike, however far one looks. -/
theorem Respaced.alike {words : List Lexeme} {text other : List Char}
    (respaced : Respaced words text other) (count : Nat) :
    Alike count text other := by
  induction respaced generalizing count with
  | ended isGap isGap' | closed isGap isGap' =>
    have nothing : Sheltered [] := by simp [Sheltered]
    have sheltered := isGap'.sheltered nothing
    rw [List.append_nil] at sheltered
    exact ⟨[], _, _, rfl, rfl, .inr sheltered⟩
  | lineBreak isGap isGap' isBreak more ih =>
    exact ⟨[], _, _, rfl, rfl, .inr (isGap'.sheltered (isBreak.sheltered _))⟩
  | @word gap gap' spelling text text' _ _ isGap isGap' kept spelled more ih =>
    by_cases filled : gap' = []
    · have empty : gap = [] := by
        by_contra gapFilled
        exact kept gapFilled filled
      subst filled empty
      obtain ⟨middle, after, after', rfl, rfl, far⟩ := ih (count - spelling.length)
      refine ⟨spelling ++ middle, after, after', by simp, by simp, far.imp_left ?_⟩
      intro enough
      rw [List.length_append]
      omega
    · exact ⟨[], _, _, rfl, rfl, .inr (isGap'.sheltered filled _)⟩

/-! ## Words that a text gives -/

namespace Reading

variable {last : Option Kind} {words : List Lexeme} {text : List Char}

/-- Behind a token of the kind `last`, if there is one, the text is read to its end and gives the
words. -/
def Gives (last : Option Kind) (text : List Char) (words : List Lexeme) : Prop :=
  (readOn last .start 0 text).tokens.map Token.lexeme = words ∧
    ∃ span, (readOn last .start 0 text).ending = .finished span

theorem gives_iff (here : Position) :
    Gives last text words ↔ (readOn last here 0 text).tokens.map Token.lexeme = words ∧
      ∃ span, (readOn last here 0 text).ending = .finished span := by
  obtain ⟨there, finishes⟩ := readOn_elsewhere last .start here text
  obtain ⟨-, finishesBack⟩ := readOn_elsewhere last here .start text
  constructor
  · rintro ⟨same, span, isFinished⟩
    exact ⟨there.trans same, finishes span isFinished⟩
  · rintro ⟨same, span, isFinished⟩
    exact ⟨there.symm.trans same, finishesBack span isFinished⟩

section Pieces

variable {first : Char} {front rest : List Char}

theorem gives_gap (read : Piece.read (!last.any Kind.endsOperand) first (front ++ rest) =
      .gap (first :: front).length) :
    Gives last (first :: front ++ rest) words ↔ Gives last rest words := by
  have behind := @gives_iff last words rest (Position.start.afterAll (first :: front))
  rw [behind, Gives, readOn_gap read]

theorem gives_lineBreak (read : Piece.read (!last.any Kind.endsOperand) first (front ++ rest) =
      .lineBreak (first :: front).length) :
    Gives last (first :: front ++ rest) (⟨.newline, "\n", ""⟩ :: words) ↔
      Gives (some .newline) rest words := by
  have behind := @gives_iff (some .newline) words rest (Position.start.afterAll (first :: front))
  rw [behind, Gives, readOn_lineBreak read]
  exact and_congr_left fun _ => List.cons_inj_right _

theorem gives_word {word : Lexeme}
    (read : Piece.read (!last.any Kind.endsOperand) first (front ++ rest) =
      .word (first :: front).length word.kind word.text word.quote) :
    Gives last (first :: front ++ rest) (word :: words) ↔ Gives (some word.kind) rest words := by
  have behind := @gives_iff (some word.kind) words rest (Position.start.afterAll (first :: front))
  rw [behind, Gives, readOn_word read]
  exact and_congr_left fun _ => List.cons_inj_right _

end Pieces

theorem gives_blank {gap : List Char} (isBlank : Blank gap) :
    Gives last (gap ++ text) words ↔ Gives last text words := by
  induction gap with
  | nil => rfl
  | cons c gap ih =>
    obtain rfl : c = ' ' := isBlank c (by simp)
    have space : Piece.read (!last.any Kind.endsOperand) ' ' ([] ++ (gap ++ text)) = .gap 1 := rfl
    have others : Blank gap := fun d member => isBlank d (List.mem_cons_of_mem _ member)
    exact (gives_gap space).trans (ih others)

/-- A comment up to a line break or the end of the text. -/
theorem gives_comment {body rest : List Char} (isComment : Comment body rest) :
    Gives last ('#' :: body ++ rest) words ↔ Gives last rest words := by
  refine gives_gap ?_
  show Piece.gap ((Piece.commentBody (body ++ rest)).length + 1) = _
  rw [Piece.commentBody_eq isComment, List.length_cons]

theorem gives_break {spelling : List Char} (isBreak : IsLineBreak spelling) :
    Gives last (spelling ++ text) (⟨.newline, "\n", ""⟩ :: words) ↔
      Gives (some .newline) text words := by
  rcases isBreak with rfl | rfl
  · exact @gives_lineBreak _ _ '\n' [] text rfl
  · exact @gives_lineBreak _ _ '\r' ['\n'] text rfl

end Reading

/-- A comment without line feeds goes on to the next line break, unless a carriage return at its end
belongs to that. -/
theorem comment_of_free {body rest : List Char} (noFeed : '\n' ∉ body)
    (ends : rest = [] ∨ startsBreak rest = true)
    (apart : ∀ front, body = front ++ ['\r'] → ∀ c ∈ rest.head?, c ≠ '\n') :
    Comment body rest := by
  refine ⟨fun front back same filled => ?_, ends⟩
  match back, filled with
  | c :: back, _ =>
    have notFeed : c ≠ '\n' := by
      rintro rfl
      exact noFeed (by simp [same])
    unfold startsBreak
    split
    · rename_i feeds
      exact absurd (List.cons.inj feeds).1 notFeed
    · rename_i returns
      obtain ⟨rfl, feeds⟩ := List.cons.inj returns
      -- The line feed stands in the comment, or directly behind its last character.
      cases back with
      | nil =>
        have behind : rest = '\n' :: _ := feeds
        exact absurd rfl (apart front same '\n' (by simp [behind]))
      | cons d back =>
        obtain rfl := (List.cons.inj feeds).1
        exact absurd (by simp [same]) noFeed
    · rfl

namespace Reading

variable {last : Option Kind} {words : List Lexeme} {text gap : List Char}

theorem gives_trailing_break {spelling : List Char} (isGap : Trailing gap)
    (isBreak : IsLineBreak spelling) :
    Gives last (gap ++ (spelling ++ text)) (⟨.newline, "\n", ""⟩ :: words) ↔
      Gives (some .newline) text words := by
  cases isGap with
  | blank isBlank => rw [gives_blank isBlank, gives_break isBreak]
  | comment isBlank noFeed =>
    rename_i gap body
    have starts : startsBreak (spelling ++ text) = true := by
      rcases isBreak with rfl | rfl <;> rfl
    rw [List.append_assoc, gives_blank isBlank]
    by_cases joined : ∃ front, body = front ++ ['\r'] ∧ spelling = ['\n']
    -- The carriage return at the end of the comment makes one line break with the line feed.
    · obtain ⟨front, rfl, rfl⟩ := joined
      have isComment : Comment front ('\r' :: '\n' :: text) := by
        refine comment_of_free ?_ (.inr rfl) (by simp)
        exact fun member => noFeed (by simp [member])
      have break_ := @gives_break last words text ['\r', '\n'] (.inr rfl)
      rw [List.cons_append, List.cons_append, List.nil_append, ← gives_comment isComment] at break_
      simpa using break_
    · have isComment : Comment body (spelling ++ text) := by
        refine comment_of_free noFeed (.inr starts) fun front same c isHead => ?_
        rcases isBreak with rfl | rfl
        · exact absurd ⟨front, same, rfl⟩ joined
        · obtain rfl : '\r' = c := Option.some.inj isHead
          decide
      rw [gives_comment isComment, gives_break isBreak]

/-- What stands at the end of a text does not matter. -/
theorem gives_trailing (isGap : Trailing gap) : Gives last gap words ↔ Gives last [] words := by
  cases isGap with
  | blank isBlank =>
    have nothing := @gives_blank last words [] gap isBlank
    rwa [List.append_nil] at nothing
  | comment isBlank noFeed =>
    rename_i gap body
    have isComment : Comment body [] := comment_of_free noFeed (.inl rfl) (by simp)
    rw [gives_blank isBlank, ← gives_comment isComment, List.append_nil]

end Reading

variable {text other gap : List Char} {words : List Lexeme} {word : Lexeme}

/-! ## The same words -/

theorem Lexeme.Spelled.unique {spelling : List Char} (spelled : word.Spelled spelling)
    (spelledOther : word.Spelled other) :
    spelling = other := by
  -- What a word that is no string says is its spelling.
  have plain : ∀ {spelling : List Char}, word.Spelled spelling → word.kind ≠ .string →
      spelling = word.text.toList := by
    intro spelling spelled notString
    cases spelled with
    | string => contradiction
    | word | number | symbol => simp
  by_cases isString : word.kind = .string
  · cases spelled with
    | word => exact absurd isString (Kind.ofWord_ne _).2.1
    | number | symbol => contradiction
    | @string quote body =>
      generalize same : (⟨.string, String.ofList body, String.ofList [quote]⟩ : Lexeme) = word
        at spelledOther
      cases spelledOther with
      | word => exact absurd (congrArg Lexeme.kind same).symm (Kind.ofWord_ne _).2.1
      | number | symbol => cases same
      | string =>
        obtain ⟨-, sameBody, sameQuote⟩ := Lexeme.mk.inj same
        have bodies := String.ofList_injective sameBody
        have quotes := List.cons.inj (String.ofList_injective sameQuote)
        rw [bodies, quotes.1]
  · rw [plain spelled isString, plain spelledOther isString]

/-- No word begins with a character of a gap or of a line break. -/
theorem Lexeme.Spelled.begins {spelling : List Char} (spelled : word.Spelled spelling) :
    ∃ first front, spelling = first :: front ∧
      first ≠ ' ' ∧ first ≠ '#' ∧ first ≠ '\n' ∧ first ≠ '\r' := by
  cases spelled with
  | word starts continues =>
    have differs : ∀ c, Text.isNameStart c = false → _ ≠ c := fun c => Text.ne_of_isNameStart starts
    exact ⟨_, _, rfl, differs ' ' (by decide), differs '#' (by decide), differs '\n' (by decide),
      differs '\r' (by decide)⟩
  | @number sign text isSign numeral =>
    rcases isSign with rfl | rfl
    · cases numeral with
      | mk isDigit =>
        have differs : ∀ c : Char, c.isDigit = false → _ ≠ c := fun c => Text.ne_of_isDigit isDigit
        exact ⟨_, _, rfl, differs ' ' (by decide), differs '#' (by decide),
          differs '\n' (by decide), differs '\r' (by decide)⟩
    · exact ⟨'-', text, rfl, by decide⟩
  | string isQuote free =>
    refine ⟨_, _, rfl, ?_⟩
    rcases isQuote with rfl | rfl <;> decide
  | symbol mark => cases mark <;> exact ⟨_, _, rfl, by decide⟩

theorem Reading.read_of_gives {last : Option Kind} {first : Char} {front : List Char}
    (spelled : word.Spelled (first :: front))
    (gives : Gives last (first :: front ++ text) (word :: words)) :
    Piece.read (!last.any Kind.endsOperand) first (front ++ text) =
      .word (first :: front).length word.kind word.text word.quote := by
  obtain ⟨c, others, same, noSpace, noHash, noFeed, noReturn⟩ := spelled.begins
  obtain ⟨rfl, rfl⟩ := List.cons.inj same
  obtain ⟨gives, span, finished⟩ := gives
  rw [List.cons_append] at gives finished
  rcases Piece.read_cuts (!last.any Kind.endsOperand) first (front ++ text) with
    ⟨cause, broken⟩ | ⟨taken, rest, cut, cuts⟩
  · rw [readOn, broken] at finished
    cases finished
  · generalize isPiece : Piece.read (!last.any Kind.endsOperand) first (front ++ text) = piece at cuts
    cases cuts with
    | space => exact absurd (List.cons.inj cut).1 noSpace
    | comment => exact absurd (List.cons.inj cut).1 noHash
    | feed => exact absurd (List.cons.inj cut).1 noFeed
    | returnFeed => exact absurd (List.cons.inj cut).1 noReturn
    | @word kind spelling quote _ _ spelledHere =>
      rw [readOn, isPiece] at gives
      have isWord : (⟨kind, spelling, quote⟩ : Lexeme) = word := (List.cons.inj gives).1
      subst isWord
      rw [spelled.unique spelledHere]

theorem Respaced.gives (respaced : Respaced words text other) {last : Option Kind}
    (gives : Reading.Gives last text words) :
    Reading.Gives last other words := by
  induction respaced generalizing last with
  | ended isGap isGap' | closed isGap isGap' =>
    exact (Reading.gives_trailing isGap').mpr ((Reading.gives_trailing isGap).mp gives)
  | lineBreak isGap isGap' isBreak more ih =>
    have behind := (Reading.gives_trailing_break isGap isBreak).mp gives
    exact (Reading.gives_trailing_break isGap' isBreak).mpr (ih behind)
  | word isGap isGap' kept spelled more ih =>
    obtain ⟨first, front, rfl, -⟩ := spelled.begins
    rw [Reading.gives_blank isGap] at gives
    have read := Reading.read_of_gives spelled gives
    have again := Piece.read_word_alike read (more.alike 2)
    rw [Reading.gives_blank isGap', Reading.gives_word again]
    exact ih ((Reading.gives_word read).mp gives)

/-! ## Texts are made of words and gaps -/

theorem Blank.nil : Blank [] :=
  fun _ member => by cases member

theorem Blank.cons (isBlank : Blank gap) : Blank (' ' :: gap) := by
  intro c member
  rcases List.mem_cons.mp member with rfl | member
  · rfl
  · exact isBlank c member

theorem Trailing.cons (isGap : Trailing gap) : Trailing (' ' :: gap) := by
  cases isGap with
  | blank isBlank => exact .blank isBlank.cons
  | comment isBlank noFeed => exact .comment isBlank.cons noFeed

theorem Respaced.space (respaced : Respaced words text other) :
    Respaced words (' ' :: text) (' ' :: other) := by
  cases respaced with
  | ended isGap isGap' => exact .ended isGap.cons isGap'.cons
  | closed isGap isGap' => exact .closed isGap.cons isGap'.cons
  | lineBreak isGap isGap' isBreak more => exact .lineBreak isGap.cons isGap'.cons isBreak more
  | word isGap isGap' kept spelled more =>
    exact .word isGap.cons isGap'.cons (fun _ => List.cons_ne_nil _ _) spelled more

/-- The front of a line break or of nothing is no gap. -/
theorem Trailing.eq_nil (isGap : Trailing gap)
    (ends : gap ++ text = [] ∨ startsBreak (gap ++ text) = true) :
    gap = [] := by
  cases gap with
  | nil => rfl
  | cons c gap =>
    have isFirst : c = ' ' ∨ c = '#' := by
      generalize isCons : c :: gap = whole at isGap
      cases isGap with
      | blank isBlank => exact .inl (isBlank c (by simp [← isCons]))
      | @comment blank body isBlank noFeed =>
        cases blank with
        | nil => exact .inr (List.cons.inj isCons).1
        | cons d blank =>
          obtain rfl := (List.cons.inj isCons).1
          exact .inl (isBlank c (by simp))
    rcases ends with nothing | starts
    · cases nothing
    · rcases isFirst with rfl | rfl <;> cases starts

theorem Respaced.trailing {gap' : List Char} (isGap : Trailing gap) (isGap' : Trailing gap')
    (ends : text = [] ∨ startsBreak text = true) (ends' : other = [] ∨ startsBreak other = true)
    (respaced : Respaced words text other) :
    Respaced words (gap ++ text) (gap' ++ other) := by
  have whole : ∀ {own : List Char}, Trailing own → own = [] ∨ startsBreak own = true → own = [] := by
    intro own isOwn ownEnds
    rw [← List.append_nil own] at ownEnds
    exact isOwn.eq_nil ownEnds
  cases respaced with
  | ended own own' =>
    obtain rfl := whole own ends
    obtain rfl := whole own' ends'
    rw [List.append_nil, List.append_nil]
    exact .ended isGap isGap'
  | closed own own' =>
    obtain rfl := whole own ends
    obtain rfl := whole own' ends'
    rw [List.append_nil, List.append_nil]
    exact .closed isGap isGap'
  | lineBreak own own' isBreak more =>
    obtain rfl := own.eq_nil ends
    obtain rfl := own'.eq_nil ends'
    rw [List.nil_append, List.nil_append]
    exact .lineBreak isGap isGap' isBreak more
  | word own own' kept spelled more =>
    -- No word begins like a line break.
    obtain rfl := (Trailing.blank own).eq_nil ends
    obtain ⟨first, front, rfl, -, -, noFeed, noReturn⟩ := spelled.begins
    rcases ends with nothing | starts
    · cases nothing
    · unfold startsBreak at starts
      split at starts
      · rename_i feeds
        exact absurd (List.cons.inj feeds).1 noFeed
      · rename_i returns
        exact absurd (List.cons.inj returns).1 noReturn
      · cases starts

theorem Comment.noFeed {body rest : List Char} (isComment : Comment body rest) : '\n' ∉ body := by
  intro member
  obtain ⟨front, back, same⟩ := List.append_of_mem member
  have open_ := isComment.open_ front ('\n' :: back) same (by simp)
  cases open_

/-- A text that is read to its end is made of its words and of gaps that may be changed. -/
theorem Reading.readOn_respaced (last : Option Kind) (here : Position) (text : List Char) :
    (∃ span, (readOn last here 0 text).ending = .finished span) →
      Respaced ((readOn last here 0 text).tokens.map Token.lexeme) text text := by
  have read := readOn_byPieces last here text
  generalize readOn last here 0 text = reading at read ⊢
  rintro ⟨span, finished⟩
  have nothing : Trailing [] := .blank .nil
  induction read with
  | ended =>
    unfold close
    split
    · exact .ended nothing nothing
    · exact .ended nothing nothing
    · exact .closed nothing nothing
  | fault => cases finished
  | @gap last here first front rest reading _ cuts _ respaced =>
    generalize (first :: front).length = width at cuts
    generalize first :: front = taken at cuts
    cases cuts with
    | space => exact (respaced finished).space
    | comment isComment =>
      have isGap : Trailing ([] ++ '#' :: _) := .comment .nil isComment.noFeed
      exact .trailing isGap isGap isComment.ends isComment.ends (respaced finished)
  | @lineBreak last here first front rest reading _ cuts _ respaced =>
    generalize (first :: front).length = width at cuts
    generalize first :: front = taken at cuts
    have isBreak : IsLineBreak taken := by
      cases cuts with
      | feed => exact .inl rfl
      | returnFeed => exact .inr rfl
    exact .lineBreak nothing nothing isBreak (respaced finished)
  | word _ spelled _ respaced =>
    exact .word .nil .nil (fun filled => filled) spelled (respaced finished)

end Parlance
