import Parlance.Proofs.Token.Following
import Parlance.Proofs.Token.Starts

/-!
Contract: how far a piece of text looks.

Which piece stands at a place depends on the characters of the piece and on little behind them.
Owns: the classes of characters that open a piece (`Piece.Opening`), that a piece before a line feed
does not depend on what follows the line feed, and that a gap or a line break is read in the same way
where the text is cut off behind it. Does not own: what words look at.
-/

namespace Parlance

/-! ## Stretches -/

/-- A stretch that ends before a character stays as it is whatever follows that character. -/
theorem takeWhile_append_of_mem {isPart : Char → Bool} {stop : Char} {text : List Char}
    (stops : isPart stop = false) (member : stop ∈ text) (more : List Char) :
    (text ++ more).takeWhile isPart = text.takeWhile isPart := by
  induction text with
  | nil => cases member
  | cons c text ih =>
    rw [List.cons_append, List.takeWhile_cons, List.takeWhile_cons]
    by_cases isIn : isPart c = true
    · have behind : stop ∈ text := by
        rcases List.mem_cons.mp member with rfl | behind
        · rw [stops] at isIn
          contradiction
        · exact behind
      rw [if_pos isIn, if_pos isIn, ih behind]
    · rw [if_neg isIn, if_neg isIn]

namespace Piece

variable {signed : Bool} {first : Char} {others : List Char}

/-! ## Openings -/

/-- The piece that begins with a character of no other class: a symbol, or a number with a sign. -/
def readMark (signed : Bool) (first : Char) (rest : List Char) : Piece :=
  match first, rest with
  | '-', d :: more =>
    if d.isDigit && signed then readNumber ['-'] d more else readSymbol first rest
  | _, _ => readSymbol first rest

theorem readMark_minus (d : Char) (more : List Char) :
    readMark signed '-' (d :: more) =
      if d.isDigit && signed then readNumber ['-'] d more else readSymbol '-' (d :: more) := rfl

theorem readMark_of_ne (notMinus : first ≠ '-') (rest : List Char) :
    readMark signed first rest = readSymbol first rest := by
  unfold readMark
  split
  · contradiction
  · rfl

/-- What is read from a character on that opens neither a gap nor a line break nor a string. -/
theorem read_eq {rest : List Char} (notSpace : first ≠ ' ') (notHash : first ≠ '#')
    (notBreak : (first == '\n' || first == '\r' && rest.head? == some '\n') = false)
    (notQuote : ¬(first = '\x22' ∨ first = '\x27')) :
    read signed first rest =
      if first.isDigit then readNumber [] first rest
      else if Text.isNameStart first then readWord first rest
      else readMark signed first rest := by
  have noQuote := not_or.mp notQuote
  have noBreak := Bool.or_eq_false_iff.mp notBreak
  unfold read readMark
  rw [beq_eq_false_iff_ne.mpr notSpace, beq_eq_false_iff_ne.mpr notHash, noBreak.1, noBreak.2,
    beq_eq_false_iff_ne.mpr noQuote.1, beq_eq_false_iff_ne.mpr noQuote.2]
  rfl

theorem read_of_isNameStart (starts : Text.isNameStart first = true) (rest : List Char) :
    read signed first rest = readWord first rest := by
  have other : ∀ c, Text.isNameStart c = false → first ≠ c := fun c notStart =>
    Text.ne_of_isNameStart starts notStart
  have notQuote : ¬(first = '\x22' ∨ first = '\x27') :=
    not_or.mpr ⟨other _ (by decide), other _ (by decide)⟩
  rw [read_eq (other ' ' (by decide)) (other '#' (by decide))
    (by simp [other '\n' (by decide), other '\r' (by decide)]) notQuote,
    Text.isDigit_eq_false_of_isNameStart starts, if_neg Bool.false_ne_true, if_pos starts]

/-- The classes of characters that open a piece, each with what is read from such a character on. -/
inductive Opening (signed : Bool) (first : Char) : Prop where
  | space
      (reads : ∀ rest, read signed first rest = .gap 1)
  | hash
      (isHash : first = '#')
      (reads : ∀ rest, read signed first rest = .gap ((commentBody rest).length + 1))
  | feed
      (isFeed : first = '\n')
      (reads : ∀ rest, read signed first rest = .lineBreak 1)
  | carriageReturn
      (isReturn : first = '\r')
      (reads : ∀ rest, read signed first rest =
        if rest.head? == some '\n' then .lineBreak 2 else .fault (.strayCharacter '\r'))
  | quote
      (isQuote : first = '\x22' ∨ first = '\x27')
      (reads : ∀ rest, read signed first rest = readString first rest)
  | digit
      (isDigit : first.isDigit = true)
      (reads : ∀ rest, read signed first rest = readNumber [] first rest)
  | word
      (starts : Text.isNameStart first = true)
      (reads : ∀ rest, read signed first rest = readWord first rest)
  | mark
      (reads : ∀ rest, read signed first rest = readMark signed first rest)

theorem opening (signed : Bool) (first : Char) : Opening signed first := by
  by_cases isSpace : first = ' '
  · subst isSpace
    exact .space fun _ => rfl
  by_cases isHash : first = '#'
  · subst isHash
    exact .hash rfl fun _ => rfl
  by_cases isFeed : first = '\n'
  · subst isFeed
    exact .feed rfl fun _ => rfl
  by_cases isReturn : first = '\r'
  · subst isReturn
    refine .carriageReturn rfl fun rest => ?_
    have stray : readSymbol '\r' rest = .fault (.strayCharacter '\r') := by
      unfold readSymbol
      have two : rest.head?.bind (Symbol.ofTwo? '\r') = none := by
        rw [Option.bind_eq_none_iff]
        intro c _
        rfl
      rw [two]
      rfl
    change (if ('\r' == '\r' && rest.head? == some '\n') = true then Piece.lineBreak 2
      else readSymbol '\r' rest) = _
    rw [stray]
    rfl
  by_cases isQuote : first = '\x22' ∨ first = '\x27'
  · refine .quote isQuote fun rest => ?_
    rcases isQuote with rfl | rfl <;> rfl
  have unfolds : ∀ rest, read signed first rest =
      if first.isDigit then readNumber [] first rest
      else if Text.isNameStart first then readWord first rest
      else readMark signed first rest := fun rest =>
    read_eq isSpace isHash (by simp [isFeed, isReturn]) isQuote
  by_cases isDigit : first.isDigit = true
  · exact .digit isDigit fun rest => by rw [unfolds, if_pos isDigit]
  by_cases starts : Text.isNameStart first = true
  · exact .word starts fun rest => by rw [unfolds, if_neg isDigit, if_pos starts]
  · exact .mark fun rest => by rw [unfolds, if_neg isDigit, if_neg starts]

/-! ## Before a line feed -/

theorem commentBody_append {text : List Char} (feed : '\n' ∈ text) (more : List Char) :
    commentBody (text ++ more) = commentBody text := by
  fun_induction commentBody text with
  | case1 => cases feed
  | case2 rest => rfl
  | case3 rest => rfl
  | case4 c text noFeed noReturn ih =>
    have behind : '\n' ∈ text := by
      rcases List.mem_cons.mp feed with same | behind
      · exact absurd same.symm noFeed
      · exact behind
    obtain ⟨d, others, rfl⟩ := List.exists_cons_of_ne_nil (List.ne_nil_of_mem behind)
    rw [List.cons_append, List.cons_append] at *
    rw [commentBody]
    · rw [ih behind]
    · exact noFeed
    · intro rest isReturn same
      obtain ⟨rfl, -⟩ := List.cons.inj same
      exact noReturn others isReturn rfl

theorem fraction_eq_nil {c : Char} (notPoint : c ≠ '.') (rest : List Char) :
    fraction (c :: rest) = [] := by
  unfold fraction
  split
  · rename_i point
    exact absurd (List.cons.inj point).1 notPoint
  · rfl

theorem fraction_append {text : List Char} (feed : '\n' ∈ text) (more : List Char) :
    fraction (text ++ more) = fraction text := by
  match text, feed with
  | [c], feed =>
    obtain rfl : '\n' = c := by simpa using feed
    rfl
  | c :: d :: text, feed =>
    by_cases isPoint : c = '.'
    · subst isPoint
      have behind : '\n' ∈ d :: text := by
        rcases List.mem_cons.mp feed with same | behind
        · exact absurd same (by decide)
        · exact behind
      simp only [List.cons_append, fraction]
      by_cases isDigit : d.isDigit = true
      · have further : '\n' ∈ text := by
          rcases List.mem_cons.mp behind with rfl | further
          · exact absurd isDigit (by decide)
          · exact further
        rw [takeWhile_append_of_mem (by decide) further]
      · rw [if_neg isDigit, if_neg isDigit]
    · rw [List.cons_append, fraction_eq_nil isPoint, fraction_eq_nil isPoint]

theorem digits_append (feed : '\n' ∈ others) (more : List Char) :
    digits first (others ++ more) = digits first others := by
  obtain ⟨d, text, rfl⟩ := List.exists_cons_of_ne_nil (List.ne_nil_of_mem feed)
  unfold digits
  by_cases zero : (first == '0') = true
  · rw [if_pos zero, if_pos zero, List.cons_append]
    dsimp only
    rw [← List.cons_append, fraction_append feed]
  · rw [if_neg zero, if_neg zero, takeWhile_append_of_mem (by decide) feed]
    dsimp only
    -- The line feed is no digit, so it stands behind the digits.
    have behind : '\n' ∈ (d :: text).drop ((d :: text).takeWhile Char.isDigit).length := by
      have whole : (d :: text).takeWhile Char.isDigit ++
          (d :: text).drop ((d :: text).takeWhile Char.isDigit).length = d :: text :=
        List.prefix_iff_eq_append.mp (List.takeWhile_prefix Char.isDigit)
      rw [← whole] at feed
      rcases List.mem_append.mp feed with inside | behind
      · have isDigit := takeWhile_digits _ _ inside
        exact absurd isDigit (by decide)
      · exact behind
    have short : ((d :: text).takeWhile Char.isDigit).length ≤ (d :: text).length :=
      (List.takeWhile_prefix Char.isDigit).length_le
    rw [List.drop_append_of_le_length short, fraction_append behind]

theorem readNumber_append (sign : List Char) (feed : '\n' ∈ others) (more : List Char) :
    readNumber sign first (others ++ more) = readNumber sign first others := by
  unfold readNumber
  rw [digits_append feed]

theorem head?_append_of_mem (feed : '\n' ∈ others) (more : List Char) :
    (others ++ more).head? = others.head? := by
  obtain ⟨d, text, rfl⟩ := List.exists_cons_of_ne_nil (List.ne_nil_of_mem feed)
  rfl

theorem readSymbol_append (feed : '\n' ∈ others) (more : List Char) :
    readSymbol first (others ++ more) = readSymbol first others := by
  unfold readSymbol
  rw [head?_append_of_mem feed]

theorem readMark_append (feed : '\n' ∈ others) (more : List Char) :
    readMark signed first (others ++ more) = readMark signed first others := by
  by_cases isMinus : first = '-'
  · subst isMinus
    obtain ⟨d, text, rfl⟩ := List.exists_cons_of_ne_nil (List.ne_nil_of_mem feed)
    rw [List.cons_append, readMark_minus, readMark_minus, ← List.cons_append,
      readSymbol_append feed]
    by_cases isSigned : (d.isDigit && signed) = true
    · have behind : '\n' ∈ text := by
        rcases List.mem_cons.mp feed with same | behind
        · rw [← same] at isSigned
          exact absurd (Bool.and_eq_true_iff.mp isSigned).1 (by decide)
        · exact behind
      rw [if_pos isSigned, if_pos isSigned, readNumber_append _ behind]
    · rw [if_neg isSigned, if_neg isSigned]
  · rw [readMark_of_ne isMinus, readMark_of_ne isMinus, readSymbol_append feed]

theorem readString_append {quote : Char} (closed : ∀ cause, readString quote others ≠ .fault cause)
    (more : List Char) :
    readString quote (others ++ more) = readString quote others := by
  unfold readString at closed
  dsimp only at closed
  by_cases short : (others.takeWhile (· != quote)).length < others.length
  · have member : quote ∈ others := by
      by_cases member : quote ∈ others
      · exact member
      · have all : (others ++ []).takeWhile (· != quote) = others := by
          apply takeWhile_stretch
          · intro c inside
            rw [bne_iff_ne]
            intro same
            exact member (same ▸ inside)
          · intro c isHead
            cases isHead
        rw [List.append_nil] at all
        rw [all] at short
        exact absurd short (Nat.lt_irrefl _)
    unfold readString
    rw [takeWhile_append_of_mem (by simp) member]
    dsimp only
    rw [if_pos short, if_pos (by rw [List.length_append]; omega)]
  · rw [if_neg short] at closed
    exact absurd rfl (closed _)

/-- What is read before a line feed, if it is no fault, does not depend on what follows that line
feed. -/
theorem read_append (feed : first = '\n' ∨ '\n' ∈ others)
    (sound : ∀ cause, read signed first others ≠ .fault cause) (more : List Char) :
    read signed first (others ++ more) = read signed first others := by
  by_cases isFeed : first = '\n'
  · subst isFeed
    rfl
  have feed : '\n' ∈ others := feed.resolve_left isFeed
  cases opening signed first with
  | space reads => rw [reads, reads]
  | hash _ reads => rw [reads, reads, commentBody_append feed]
  | feed _ reads => rw [reads, reads]
  | carriageReturn _ reads => rw [reads, reads, head?_append_of_mem feed]
  | quote _ reads =>
    rw [reads, reads]
    apply readString_append
    intro cause
    rw [← reads]
    exact sound cause
  | digit _ reads => rw [reads, reads, readNumber_append [] feed]
  | word _ reads =>
    rw [reads, reads]
    unfold readWord
    rw [takeWhile_append_of_mem (by decide) feed]
  | mark reads => rw [reads, reads, readMark_append feed]

/-! ## Cutting a text off behind a piece -/

variable {front middle after : List Char}

theorem eq_of_append_eq {text tail rest : List Char} (same : front ++ rest = text ++ tail)
    (length : text.length = front.length) :
    text = front :=
  (List.append_inj same length.symm).1.symm

theorem readNumber_ne_word {text : String} {kind : Kind} {quote : String}
    (isDigit : first.isDigit = true) (rest : List Char) :
    readNumber ['-'] first rest ≠ .word 1 kind text quote := by
  intro whole
  unfold readNumber at whole
  cases found : digits first rest with
  | error cause => simp [found] at whole
  | ok numeral =>
    obtain ⟨tail, same, isNumeral⟩ := digits_cuts isDigit found
    have filled : 0 < numeral.length := List.length_pos_iff.mpr isNumeral.plain.1
    rw [found] at whole
    have width : 1 + numeral.length = 1 := (word.inj whole).1
    omega

/-- A line break is read in the same way where the text is cut off at or behind its end. -/
theorem read_lineBreak_cut
    (whole : read signed first (front ++ (middle ++ after)) = .lineBreak (first :: front).length) :
    read signed first (front ++ middle) = .lineBreak (first :: front).length := by
  rcases read_cuts signed first (front ++ (middle ++ after)) with
    ⟨cause, broken⟩ | ⟨taken, rest, same, cuts⟩
  · rw [whole] at broken
    cases broken
  · rw [whole] at cuts
    rw [← List.cons_append] at same
    generalize width : (first :: front).length = length at cuts
    cases cuts with
    | feed =>
      obtain ⟨rfl, rfl⟩ := List.cons.inj (eq_of_append_eq same width.symm)
      rfl
    | returnFeed =>
      obtain ⟨rfl, rfl⟩ := List.cons.inj (eq_of_append_eq same width.symm)
      rfl

theorem startsBreak_append {text : List Char} (starts : startsBreak text = true)
    (more : List Char) :
    startsBreak (text ++ more) = true := by
  unfold startsBreak at starts
  split at starts
  · rfl
  · rfl
  · cases starts

theorem commentBody_eq {body rest : List Char} (isComment : Comment body rest) :
    commentBody (body ++ rest) = body := by
  induction body with
  | nil =>
    rcases isComment.ends with rfl | starts
    · rfl
    · unfold startsBreak at starts
      split at starts
      · rfl
      · rfl
      · cases starts
  | cons c body ih =>
    have stays : startsBreak (c :: body ++ rest) = false :=
      isComment.open_ [] (c :: body) rfl (List.cons_ne_nil c body)
    have behind : Comment body rest := by
      refine ⟨fun front back same filled => ?_, isComment.ends⟩
      exact isComment.open_ (c :: front) back (by rw [same, List.cons_append]) filled
    rw [List.cons_append] at stays ⊢
    rw [commentBody, ih behind]
    · rintro rfl
      cases stays
    · intro others isReturn same
      subst isReturn
      rw [same] at stays
      cases stays

/-- A gap is read in the same way where the text is cut off behind it, if the line break that ends a
comment is not cut. -/
theorem read_gap_cut
    (whole : read signed first (front ++ (middle ++ after)) = .gap (first :: front).length)
    (uncut : startsBreak (middle ++ after) = true → startsBreak middle = true) :
    read signed first (front ++ middle) = .gap (first :: front).length := by
  rcases read_cuts signed first (front ++ (middle ++ after)) with
    ⟨cause, broken⟩ | ⟨taken, rest, same, cuts⟩
  · rw [whole] at broken
    cases broken
  · rw [whole] at cuts
    rw [← List.cons_append] at same
    generalize width : (first :: front).length = length at cuts
    cases cuts with
    | space =>
      obtain ⟨rfl, rfl⟩ := List.cons.inj (eq_of_append_eq same width.symm)
      rfl
    | comment isComment =>
      rename_i body
      obtain ⟨rfl, rfl⟩ := List.cons.inj (eq_of_append_eq same width.symm)
      have behind : rest = middle ++ after := (List.append_cancel_left same).symm
      subst behind
      have shorter : Comment body middle := by
        constructor
        · intro start back parts filled
          have open_ := isComment.open_ start back parts filled
          cases starts : startsBreak (back ++ middle) with
          | false => rfl
          | true =>
            have longer := startsBreak_append starts after
            rw [List.append_assoc, open_] at longer
            cases longer
        · rcases isComment.ends with nothing | starts
          · exact .inl (List.append_eq_nil_iff.mp nothing).1
          · exact .inr (uncut starts)
      change Piece.gap ((commentBody (body ++ middle)).length + 1) = _
      rw [commentBody_eq shorter]

end Piece

end Parlance
