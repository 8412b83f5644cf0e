import Parlance.Proofs.Token.Tiling

/-!
Contract: where a row of tokens stands in a text.

Owns: the span of a row of tokens (`rowSpan`), the stretch of a text that a span covers
(`Span.Covers`), which the span determines, and that the tokens of a reading stand in the text one
behind the other (`Placed`), so that a row of them covers a stretch and the rows in it cover
stretches in that one. Does not own: how a stretch is read when it stands alone.
-/

namespace Parlance

/-! ## Spans of rows -/

/-- The span of the last token of a row, or the given one if the row is empty. -/
def endSpan (span : Span) : List Token → Span
  | [] => span
  | token :: rest => endSpan token.span rest

/-- The span from the start of a row's first token to the end of its last. -/
def rowSpan : List Token → Span
  | [] => .origin
  | first :: rest => first.span.through (endSpan first.span rest)

@[simp] theorem endSpan_nil (span : Span) : endSpan span [] = span := rfl

@[simp] theorem endSpan_cons (span : Span) (token : Token) (rest : List Token) :
    endSpan span (token :: rest) = endSpan token.span rest := rfl

@[simp] theorem endSpan_append (span : Span) (front back : List Token) :
    endSpan span (front ++ back) = endSpan (endSpan span front) back := by
  induction front generalizing span with
  | nil => rfl
  | cons token front ih => exact ih token.span

@[simp] theorem rowSpan_cons (first : Token) (rest : List Token) :
    rowSpan (first :: rest) = first.span.through (endSpan first.span rest) := rfl

@[simp] theorem Span.through_through_left (first middle last : Span) :
    (first.through middle).through last = first.through last := rfl

@[simp] theorem Span.through_through_right (first middle last : Span) :
    first.through (middle.through last) = first.through last := rfl

theorem rowSpan_of_ends {tokens : List Token} {first last : Token}
    (isFirst : tokens.head? = some first) (isLast : tokens.getLast? = some last) :
    rowSpan tokens = first.span.through last.span := by
  obtain ⟨rest, rfl⟩ := List.head?_eq_some_iff.mp isFirst
  obtain ⟨front, same⟩ := List.getLast?_eq_some_iff.mp isLast
  have ends : endSpan first.span (first :: rest) = last.span := by
    rw [same, endSpan_append, endSpan_cons, endSpan_nil]
  rw [rowSpan_cons, ← ends, endSpan_cons]

/-- A longer row starts as its front does, and ends as its back does. -/
theorem rowSpan_append {front : List Token} (filled : front ≠ []) (span : Span)
    (back : List Token) :
    rowSpan (front ++ back) = (rowSpan front).through (endSpan (endSpan span front) back) := by
  obtain ⟨first, rest, rfl⟩ := List.exists_cons_of_ne_nil filled
  rw [List.cons_append, rowSpan_cons, rowSpan_cons, endSpan_append, endSpan_cons,
    Span.through_through_left]

theorem through_rowSpan {row : List Token} (filled : row ≠ []) (first span : Span) :
    first.through (rowSpan row) = first.through (endSpan span row) := by
  obtain ⟨token, rest, rfl⟩ := List.exists_cons_of_ne_nil filled
  rw [rowSpan_cons, Span.through_through_right, endSpan_cons]

/-! ## Stretches of a text -/

/-- The span begins with the character at the offset `first` of a text, and ends with the one before
the offset `behind`. -/
structure Span.Covers (span : Span) (source : List Char) (first behind : Nat) : Prop where
  filled : first < behind
  inside : behind ≤ source.length
  offset : span.offset = (first : Int)
  startLine : span.startLine = (lineAt (source.take first) : Int)
  startColumn : span.startColumn = (columnAt (source.take first) : Int)
  endLine : span.endLine = (lineAt (source.take (behind - 1)) : Int)
  endColumn : span.endColumn = (columnAt (source.take (behind - 1)) : Int)

theorem columnAt_append {more : List Char} (noFeed : '\n' ∉ more) (before : List Char) :
    columnAt (before ++ more) = columnAt before + more.length := by
  have free : ∀ c ∈ more.reverse, (c != '\n') = true := by
    intro c member
    rw [bne_iff_ne]
    rintro rfl
    exact noFeed (List.mem_reverse.mp member)
  unfold columnAt
  rw [List.reverse_append, List.takeWhile_append_of_pos free, List.length_append,
    List.length_reverse]
  omega

/-- Further on in a text a character stands on a later line, or in a later column of the same. -/
theorem place_lt_of_lt {source : List Char} {left right : Nat} (less : left < right)
    (inside : right ≤ source.length) :
    lineAt (source.take left) < lineAt (source.take right) ∨
      lineAt (source.take left) = lineAt (source.take right) ∧
        columnAt (source.take left) < columnAt (source.take right) := by
  obtain ⟨distance, rfl⟩ := Nat.exists_eq_add_of_lt less
  have parts : source.take (left + distance + 1) =
      source.take left ++ (source.drop left).take (distance + 1) := by
    rw [Nat.add_assoc, List.take_add]
  rw [parts]
  unfold lineAt
  rw [List.count_append]
  by_cases feed : '\n' ∈ (source.drop left).take (distance + 1)
  · have counted := List.count_pos_iff.mpr feed
    omega
  · rw [columnAt_append feed, List.count_eq_zero_of_not_mem feed, List.length_take,
      List.length_drop]
    omega

theorem Span.Covers.unique {span : Span} {source : List Char} {first behind first' behind' : Nat}
    (covers : span.Covers source first behind) (covers' : span.Covers source first' behind') :
    first = first' ∧ behind = behind' := by
  have sameFirst : first = first' := by
    have offset := covers.offset
    rw [covers'.offset] at offset
    exact (Int.ofNat.inj offset).symm
  refine ⟨sameFirst, ?_⟩
  have lines := covers.endLine.symm.trans covers'.endLine
  have columns := covers.endColumn.symm.trans covers'.endColumn
  have inside := covers.inside
  have inside' := covers'.inside
  have filled := covers.filled
  have filled' := covers'.filled
  rcases Nat.lt_trichotomy (behind - 1) (behind' - 1) with less | same | more
  · have := place_lt_of_lt less (show behind' - 1 ≤ source.length by omega)
    omega
  · omega
  · have := place_lt_of_lt more (show behind - 1 ≤ source.length by omega)
    omega

/-- Two stretches, the second at or behind the first, make up the stretch from the start of the one
to the end of the other. -/
theorem Span.Covers.through {left right : Span} {source : List Char}
    {first middle middle' behind : Nat} (covers : left.Covers source first middle)
    (covers' : right.Covers source middle' behind) (longer : first < behind) :
    (left.through right).Covers source first behind :=
  ⟨longer, covers'.inside, covers.offset, covers.startLine, covers.startColumn, covers'.endLine,
    covers'.endColumn⟩

/-- A span covers a stretch of text if it starts behind what stands before the stretch, and ends
where the last character of the stretch stands. -/
theorem Span.covers_stretch {span : Span} {before front : List Char} (last : Char)
    (rest : List Char) (offset : span.offset = (before.length : Int))
    (startLine : span.startLine = (lineAt before : Int))
    (startColumn : span.startColumn = (columnAt before : Int))
    (endLine : span.endLine = (lineAt (before ++ front) : Int))
    (endColumn : span.endColumn = (columnAt (before ++ front) : Int)) :
    span.Covers (before ++ (front ++ [last] ++ rest)) before.length
      (before.length + (front ++ [last]).length) := by
  have start : (before ++ (front ++ [last] ++ rest)).take before.length = before := List.take_left
  have stop : (before ++ (front ++ [last] ++ rest)).take
      (before.length + (front ++ [last]).length - 1) = before ++ front := by
    have length : before.length + (front ++ [last]).length - 1 = (before ++ front).length := by
      simp
    have parts : before ++ (front ++ [last] ++ rest) = (before ++ front) ++ ([last] ++ rest) := by
      simp
    rw [length, parts, List.take_left]
  constructor
  · simp
  · simp only [List.length_append]
    omega
  · exact offset
  · rw [start]
    exact startLine
  · rw [start]
    exact startColumn
  · rw [stop]
    exact endLine
  · rw [stop]
    exact endColumn

theorem Token.At.covers {token : Token} {before spelling rest : List Char}
    (placed : token.At before spelling) (notBreak : token.kind ≠ .newline)
    (notOver : token.kind ≠ .endOfInput) :
    token.span.Covers (before ++ (spelling ++ rest)) before.length
      (before.length + spelling.length) := by
  obtain ⟨front, last, rfl, endLine, endColumn⟩ := placed.ending notBreak notOver
  exact Span.covers_stretch last rest placed.offset placed.startLine placed.startColumn endLine
    endColumn

/-! ## Tokens in a text -/

/-- Between the offsets `first` and `behind` of a text the tokens stand one behind the other, and
each that is no line break covers its own stretch. -/
inductive Placed (source : List Char) : Nat → List Token → Nat → Prop where
  | nothing {first behind : Nat} (ordered : first ≤ behind) (inside : behind ≤ source.length) :
      Placed source first [] behind
  | token {first start stop behind : Nat} {token : Token} {tokens : List Token}
      (after : first ≤ start) (ordered : start ≤ stop)
      (covers : token.kind ≠ .newline → token.span.Covers source start stop)
      (more : Placed source stop tokens behind) :
      Placed source first (token :: tokens) behind

namespace Placed

variable {source : List Char} {first behind : Nat} {tokens : List Token}

theorem le (placed : Placed source first tokens behind) : first ≤ behind := by
  induction placed with
  | nothing ordered inside => exact ordered
  | token after ordered covers more ih => omega

theorem le_length (placed : Placed source first tokens behind) : behind ≤ source.length := by
  induction placed with
  | nothing ordered inside => exact inside
  | token after ordered covers more ih => exact ih

theorem weaken {earlier : Nat} (placed : Placed source first tokens behind)
    (less : earlier ≤ first) :
    Placed source earlier tokens behind := by
  cases placed with
  | nothing ordered inside => exact .nothing (Nat.le_trans less ordered) inside
  | token after ordered covers more => exact .token (Nat.le_trans less after) ordered covers more

theorem split {front back : List Token} (placed : Placed source first (front ++ back) behind) :
    ∃ middle, Placed source first front middle ∧ Placed source middle back behind := by
  induction front generalizing first with
  | nil =>
    have ordered := placed.le
    have inside := placed.le_length
    exact ⟨first, .nothing (Nat.le_refl first) (Nat.le_trans ordered inside), placed⟩
  | cons token front ih =>
    cases placed with
    | token after ordered covers more =>
      obtain ⟨middle, frontPlaced, backPlaced⟩ := ih more
      exact ⟨middle, .token after ordered covers frontPlaced, backPlaced⟩

theorem append {middle : Nat} {front back : List Token} (placed : Placed source first front middle)
    (more : Placed source middle back behind) :
    Placed source first (front ++ back) behind := by
  induction placed with
  | nothing ordered inside => exact more.weaken ordered
  | token after ordered covers _ ih =>
    exact .token after ordered covers (ih more)

/-- A row that neither begins nor ends with a line break covers a stretch, and stands in it. -/
theorem covers {token last : Token} (placed : Placed source first tokens behind)
    (isFirst : tokens.head? = some token) (isLast : tokens.getLast? = some last)
    (opens : token.kind ≠ .newline) (ends : last.kind ≠ .newline) :
    ∃ start stop, first ≤ start ∧ stop ≤ behind ∧ Placed source start tokens stop ∧
      (rowSpan tokens).Covers source start stop := by
  rw [rowSpan_of_ends isFirst isLast]
  obtain ⟨rest, rfl⟩ := List.head?_eq_some_iff.mp isFirst
  cases placed with
  | token after ordered tokenCovers more =>
    rename_i start stop
    rcases List.eq_nil_or_concat rest with rfl | ⟨front, other, rfl⟩
    · obtain rfl := Option.some.inj isLast
      have covers := tokenCovers opens
      have alone : Placed source start [token] stop :=
        .token (Nat.le_refl start) ordered tokenCovers (.nothing (Nat.le_refl stop) covers.inside)
      exact ⟨start, stop, after, more.le, alone, covers⟩
    · rw [List.concat_eq_append] at more isLast ⊢
      rw [← List.cons_append, List.getLast?_concat] at isLast
      obtain rfl := Option.some.inj isLast
      obtain ⟨middle, frontPlaced, lastPlaced⟩ := more.split
      cases lastPlaced with
      | token lastAfter lastOrdered lastCovers lastMore =>
        rename_i lastStart lastStop
        have reaches := lastCovers ends
        have longer : start < lastStop := by
          have filled := reaches.filled
          have between := frontPlaced.le
          omega
        have closing : Placed source middle [other] lastStop :=
          .token lastAfter lastOrdered lastCovers (.nothing (Nat.le_refl _) reaches.inside)
        have whole : Placed source start (token :: (front ++ [other])) lastStop :=
          .token (Nat.le_refl start) ordered tokenCovers (frontPlaced.append closing)
        exact ⟨start, lastStop, after, lastMore.le, whole,
          (tokenCovers opens).through reaches longer⟩

end Placed

theorem Reading.ByPieces.placed {last : Option Kind} {here : Position} {text : List Char}
    {reading : Reading} (read : ByPieces last here text reading)
    (before : List Char) (isHere : here = Position.start.afterAll before) :
    Placed (before ++ text) before.length reading.tokens (before ++ text).length := by
  induction read generalizing before with
  | ended =>
    subst isHere
    have nothing : Placed (before ++ []) before.length [] (before ++ []).length :=
      .nothing (by simp) (Nat.le_refl _)
    unfold close
    split
    · exact nothing
    · exact nothing
    · exact .token (Nat.le_refl _) (Nat.le_refl _) (fun notBreak => absurd rfl notBreak) nothing
  | fault => exact .nothing (by simp) (Nat.le_refl _)
  | @gap last here first front rest reading _ _ _ placed =>
    have behind := placed (before ++ first :: front) (by rw [isHere, Position.afterAll_append])
    rw [List.append_assoc] at behind
    exact behind.weaken (by simp)
  | @lineBreak last here first front rest reading _ _ _ placed =>
    have behind := placed (before ++ first :: front) (by rw [isHere, Position.afterAll_append])
    rw [List.append_assoc] at behind
    subst isHere
    exact .token (Nat.le_refl _) (by simp) (fun notBreak => absurd rfl notBreak) behind
  | @word last here word first front rest reading _ spelled _ placed =>
    have behind := placed (before ++ first :: front) (by rw [isHere, Position.afterAll_append])
    rw [List.append_assoc] at behind
    subst isHere
    rw [← Position.afterAll_append]
    obtain ⟨notBreak, notOver⟩ := spelled.kind_ne
    refine .token (Nat.le_refl _) (by simp) (fun _ => ?_) behind
    rw [List.length_append]
    exact (Token.at_of_spelled spelled).covers notBreak notOver

theorem Reading.ofText_placed (source : String) :
    Placed source.toList 0 (Reading.ofText source).tokens source.toList.length :=
  (Reading.ofText_byPieces source).placed [] rfl

theorem Reading.ByPieces.finishes {last : Option Kind} {here : Position} {text : List Char}
    {reading : Reading} (read : ByPieces last here text reading) {span : Span}
    (finished : reading.ending = .finished span) :
    span = .point (here.afterAll text) := by
  induction read with
  | ended => exact (Ending.finished.inj finished).symm
  | fault => cases finished
  | gap _ _ _ isOver | lineBreak _ _ _ isOver | word _ _ _ isOver =>
    rw [Position.afterAll_append]
    exact isOver finished

end Parlance
