import Parlance.Proofs.Layout.Cutting
import Parlance.Proofs.Layout.Neatness
import Parlance.Proofs.Layout.Nesting

/-!
Contract: the lines of a canonical text.

Owns: when a text is laid out in lines (`Program.Tidy`), and that the canonical text of a program is,
with every width that is not negative. Lines that begin inside a string are part of the string. Does
not own: how the words of a text are laid out within a line.
-/

namespace Parlance

open Layout Lexeme

/-! ## Lines of a text -/

namespace Layout

/-- The text does not break off inside a string. -/
def IsWhole (text : List Char) : Prop :=
  ∃ span, (Reading.ofText (String.ofList text)).ending = .finished span

/-- A line begins behind the text, and not inside a string. -/
def BeginsLine (before : List Char) : Prop :=
  IsWhole before ∧ (before = [] ∨ ∃ front, before = front ++ ['\n'])

def kinds (text : List Char) : List Kind :=
  (Reading.ofText (String.ofList text)).tokens.map Token.kind

/-- The number of blocks around a line that stands between two texts. A line that begins with `else`
or `end` is not part of the block that it closes. -/
def enclosing (before after : List Char) : Nat :=
  (Nesting.behind (kinds before)).blocks - if (kinds after).head?.any Kind.outdents then 1 else 0

end Layout

structure Program.Tidy (program : Program Span) (width : Nat) (text : List Char) : Prop where
  empty_iff : text = [] ↔ program.body = []
  /-- There is no blank line at the end. -/
  ends : program.body ≠ [] → ∃ front c, text = front ++ [c, '\n'] ∧ c ≠ '\n'
  /-- Lines are blank, or indented by the blocks around them. -/
  indented : ∀ before after, text = before ++ after → BeginsLine before → after ≠ [] →
    after.head? = some '\n' ∨ ∃ c rest,
      after = List.replicate (width * enclosing before after) ' ' ++ c :: rest ∧ c ≠ ' ' ∧ c ≠ '\n'
  /-- The blank lines stand between statements of which one declares something, one each. -/
  blank_iff : ∀ before after, text = before ++ '\n' :: after ∧ BeginsLine before ↔
    ∃ front first second back, program.body = front ++ first :: second :: back ∧
      (first.declares || second.declares) = true ∧
        before = (format width { program with body := front ++ [first] }).toList ∧
          after = (format width { program with body := second :: back }).toList
  /-- A space at the end of a line is part of a string. -/
  noSpace : ∀ before after, text = before ++ ' ' :: '\n' :: after → ¬IsWhole before

namespace Layout

open Reading

/-! ## Reading the lines of a page -/

theorem isWhole_iff {text : List Char} : IsWhole text ↔ ∃ words, Gives none text words := by
  rw [IsWhole, Reading.ofText, String.toList_ofList]
  constructor
  · exact fun finished => ⟨_, rfl, finished⟩
  · rintro ⟨_, -, finished⟩
    exact finished

theorem kinds_of_gives {text : List Char} {words : List Lexeme} (gives : Gives none text words) :
    kinds text = words.map Lexeme.kind := by
  rw [kinds, Reading.ofText, String.toList_ofList, ← gives.1, List.map_map]
  rfl

/-- A page of neat statements, with the words that are read from its text. -/
structure Printed (width : Nat) (rows : List Row) (words : List Lexeme) : Prop where
  gives : Gives none (chars width (pageLayout rows)) words
  items : words.map item = bare (pageLayout rows)
  legible : ∀ word ∈ words, word.Legible
  each : ∀ row ∈ rows, row.IsNeat

section Printed

variable {width level : Nat} {rows : List Row} {words : List Lexeme} {front back : Layout}

theorem chars_line :
    Item.chars width (.line level) = '\n' :: List.replicate (width * level) ' ' := by
  have isProduct : ((width : Int) * level).toNat = width * level := by
    rw [← Int.natCast_mul, Int.toNat_natCast]
  rw [Item.chars, isProduct]

theorem mem_bare {layout : Layout} {item : Item} (member : item ∈ layout)
    (isWord : item.isWord = true) :
    item ∈ bare layout := by
  obtain ⟨front, back, rfl⟩ := List.append_of_mem member
  simp [bare_of_isWord isWord]

theorem Printed.exists_spelled {item : Item} (printed : Printed width rows words)
    (member : item ∈ pageLayout rows) (isWord : item.isWord = true) :
    ∃ word : Lexeme, word.item = item ∧ word.Spelled (item.chars width) := by
  have isBare := mem_bare member isWord
  rw [← printed.items] at isBare
  obtain ⟨word, isMember, rfl⟩ := List.mem_map.mp isBare
  obtain ⟨spelling, spelled⟩ := Layout.exists_spelled (printed.legible word isMember) isWord
  exact ⟨word, rfl, by rwa [spelled.item_chars width]⟩

theorem Printed.split_line (printed : Printed width rows words)
    (same : pageLayout rows = front ++ .line level :: back) :
    ∃ before after, before.map item = bare front ∧ after.map item = bare back ∧
      (∀ word ∈ before ++ after, word.Legible) ∧
        Gives none (chars width front ++ ['\n']) (before ++ [lineBreak]) ∧
          Gives (some .newline) (chars width back) after := by
  obtain ⟨gives, items, legible, -⟩ := printed
  rw [same] at gives items
  obtain ⟨before, rest, rfl, sameBefore, opens⟩ := exists_opens gives items legible
  rw [chars_append, opens _ [] (List.append_nil _).symm] at gives
  obtain ⟨others, sameRest, behind⟩ := gives
  rw [chars_cons, chars_line, List.cons_append, gives_feed_iff] at behind
  obtain ⟨after, rfl, indented⟩ := behind
  obtain rfl := List.append_cancel_left sameRest
  have sameAfter : after.map item = bare back := by
    rw [List.map_append, sameBefore, bare_append] at items
    exact (List.cons.inj (List.append_cancel_left items)).2
  refine ⟨before, after, sameBefore, sameAfter, fun word member => ?_, ?_, ?_⟩
  · refine legible word (List.mem_append.mpr ?_)
    exact (List.mem_append.mp member).imp_right (List.mem_cons_of_mem _)
  · have isStub : chars width (.line level :: back) =
        ['\n'] ++ (List.replicate (width * level) ' ' ++ chars width back) := by
      rw [chars_cons, chars_line]
      rfl
    have nothing : Gives (some .newline) [] [] := ⟨rfl, _, rfl⟩
    exact (opens _ _ isStub _).mpr ⟨[lineBreak], rfl, gives_feed_iff.mpr ⟨[], rfl, nothing⟩⟩
  · exact (gives_blank (blank_replicate _)).mp indented

/-- What is open where a line of a page begins is open for the compositor. -/
theorem Printed.nesting {out : Layout} {middle fed : Compositor}
    (printed : Printed width rows words) (same : pageLayout rows = front ++ .line level :: back)
    (run : Compositor.run ⟨[.page], .line⟩ (bare front) = some (out, middle))
    (feed : middle.next .newline = some fed) :
    Nesting.behind (kinds (chars width front ++ ['\n'])) = fed.nesting := by
  obtain ⟨before, after, sameBefore, -, legible, gives, -⟩ := printed.split_line same
  have sameKinds : before.map Lexeme.kind = (bare front).map Item.kind := by
    rw [← sameBefore, List.map_map]
    refine List.map_congr_left fun word member => ?_
    exact (legible word (List.mem_append_left _ member)).item_kind.symm
  have isStart : Nesting.start = Compositor.nesting ⟨[.page], .line⟩ := rfl
  rw [kinds_of_gives gives, Nesting.behind, List.map_append, List.foldl_append, sameKinds, isStart,
    ← nesting_of_run run, nesting_of_next feed]
  rfl

theorem Printed.head_kinds {first : Item} (printed : Printed width rows words)
    (same : pageLayout rows = front ++ .line level :: first :: back)
    (isWord : first.isWord = true) :
    (kinds (List.replicate (width * level) ' ' ++ chars width (first :: back))).head? =
      some first.kind := by
  obtain ⟨before, after, -, sameAfter, legible, -, gives⟩ := printed.split_line same
  rw [bare_of_isWord isWord] at sameAfter
  obtain ⟨word, others, rfl, rfl, -⟩ := List.map_eq_cons_iff.mp sameAfter
  have isLegible : word.Legible := legible word (by simp)
  obtain ⟨spelling, spelled⟩ := Layout.exists_spelled isLegible isWord
  obtain ⟨c, more, rfl, -⟩ := spelled.begins
  rw [chars_cons, spelled.item_chars] at gives ⊢
  -- Nothing is read differently because a line break stands before it.
  have read := read_of_gives spelled gives
  have again : Gives none (c :: more ++ chars width back) (word :: others) :=
    (@gives_word none others c more (chars width back) word read).mpr ((gives_word read).mp gives)
  rw [kinds_of_gives ((gives_blank (blank_replicate _)).mpr again), isLegible.item_kind]
  rfl

/-- Behind a line break of a page begins a line. It is indented by the blocks around it, or nothing
stands in it. -/
theorem Printed.beginsLine (printed : Printed width rows words)
    (same : pageLayout rows = front ++ .line level :: back) :
    BeginsLine (chars width front ++ ['\n']) ∧
      ((∃ first rest, back = first :: rest ∧ first.isWord = true ∧
          level = enclosing (chars width front ++ ['\n'])
            (List.replicate (width * level) ' ' ++ chars width back)) ∨
        level = 0 ∧ (back = [] ∨ ∃ other rest, back = .line other :: rest)) := by
  obtain ⟨before, after, -, -, -, gives, -⟩ := printed.split_line same
  refine ⟨⟨isWhole_iff.mpr ⟨_, gives⟩, .inr ⟨_, rfl⟩⟩, ?_⟩
  have neat := neat_pageLayout printed.each
  rw [same] at neat
  obtain ⟨out, middle, fed, run, feed, line⟩ := neat.split_line
  have blocks := (congrArg Nesting.blocks (printed.nesting same run feed)).trans (blocks_nesting fed)
  have onWord : ∀ first rest, back = first :: rest → first.isWord = true →
      level = lineLevel fed.frames first.kind →
        level = enclosing (chars width front ++ ['\n'])
          (List.replicate (width * level) ' ' ++ chars width back) := by
    rintro first rest rfl isWord isLevel
    rw [enclosing, blocks, printed.head_kinds same isWord]
    exact isLevel
  rcases line with ⟨first, rest, isBack, isWord, isLevel⟩ | ⟨-, isLevel, isPage, behind⟩
  · exact .inl ⟨first, rest, isBack, isWord, onWord first rest isBack isWord isLevel⟩
  · rw [isPage] at behind
    cases behind with
    | nil => exact .inr ⟨isLevel, .inl rfl⟩
    | word isWord =>
      refine .inl ⟨_, _, rfl, isWord, onWord _ _ rfl isWord ?_⟩
      rw [isLevel, isPage]
      simp [lineLevel, depth]
    | space _ inLine => exact absurd rfl inLine
    | line | feed => exact .inr ⟨isLevel, .inr ⟨_, _, rfl⟩⟩

/-! ## Line feeds of a page -/

theorem exists_quote {quote text : String} {word : Lexeme} {spelling : List Char}
    (isItem : word.item = .quoted quote text) (spelled : word.Spelled spelling) :
    ∃ mark body, (mark = '\x22' ∨ mark = '\x27') ∧ mark ∉ body ∧
      spelling = mark :: (body ++ [mark]) := by
  cases spelled with
  | word => cases (item_ofWord _).symm.trans isItem
  | number | symbol => cases isItem
  | string isQuote free => exact ⟨_, _, isQuote, free, rfl⟩

theorem Printed.not_isWhole {quote text : String} {inner outer : List Char}
    (printed : Printed width rows words)
    (same : pageLayout rows = front ++ .quoted quote text :: back)
    (isItem : Item.chars width (.quoted quote text) = inner ++ outer) (begun : inner ≠ [])
    (goesOn : outer ≠ []) :
    ¬IsWhole (chars width front ++ inner) := by
  intro isWhole
  obtain ⟨found, gives⟩ := isWhole_iff.mp isWhole
  obtain ⟨before, -, -, -, opens⟩ := exists_opens (same ▸ printed.gives) (same ▸ printed.items)
    printed.legible
  have isStub : chars width (.quoted quote text :: back) = inner ++ (outer ++ chars width back) := by
    rw [chars_cons, isItem, List.append_assoc]
  obtain ⟨after, -, opened⟩ := (opens _ _ isStub found).mp gives
  have member : .quoted quote text ∈ pageLayout rows := by simp [same]
  obtain ⟨word, sameItem, spelled⟩ := printed.exists_spelled member rfl
  obtain ⟨mark, body, isQuote, free, isSpelling⟩ := exists_quote sameItem spelled
  obtain ⟨first, inside, rfl⟩ := List.exists_cons_of_ne_nil begun
  obtain ⟨rfl, isRest⟩ := List.cons.inj (isSpelling.symm.trans isItem)
  have isBody : body ++ [mark] = inside ++ outer := isRest
  refine not_gives_of_open isQuote (fun member => free ?_) opened
  -- What is left of the string ends with its closing quote.
  rw [← List.dropLast_append_getLast goesOn, ← List.append_assoc] at isBody
  rw [(List.append_inj' isBody rfl).1]
  exact List.mem_append_left _ member

/-- A line feed of a page is one of its line breaks, or stands in a string. -/
theorem Printed.split_feed {text rest : List Char} (printed : Printed width rows words)
    (same : chars width (pageLayout rows) = text ++ '\n' :: rest) :
    (∃ front level back, pageLayout rows = front ++ .line level :: back ∧
        text = chars width front ∧ rest = List.replicate (width * level) ' ' ++ chars width back) ∨
      ∃ front quote body back inner outer, pageLayout rows = front ++ .quoted quote body :: back ∧
        Item.chars width (.quoted quote body) = inner ++ '\n' :: outer ∧ inner ≠ [] ∧ outer ≠ [] ∧
          text = chars width front ++ inner := by
  obtain ⟨front, item, back, inner, outer, layout, isItem, rfl, rfl⟩ := exists_item_of_chars same
  have member : item ∈ pageLayout rows := by simp [layout]
  cases item with
  | word spelling =>
    obtain ⟨word, sameItem, spelled⟩ := printed.exists_spelled member rfl
    have notString : word.kind ≠ .string := by
      intro isString
      rw [item, isString] at sameItem
      cases sameItem
    exact absurd rfl (spelled.plain notString '\n' (by simp [isItem])).1
  | quoted quote body =>
    obtain ⟨word, sameItem, spelled⟩ := printed.exists_spelled member rfl
    -- Neither of the two quotes is a line feed.
    obtain ⟨c, others, begins, -, -, noFeed, -⟩ := spelled.begins
    obtain ⟨others, d, ends, endsPlain, -⟩ := spelled.ends_plain
    refine .inr ⟨front, quote, body, back, inner, outer, layout, isItem, ?_, ?_, rfl⟩
    · rintro rfl
      exact noFeed (List.cons.inj (begins.symm.trans isItem)).1
    · rintro rfl
      exact endsPlain (List.singleton_inj.mp (List.append_inj' (ends.symm.trans isItem) rfl).2)
  | space => cases inner <;> simp [Item.chars] at isItem
  | line level =>
    rw [chars_line] at isItem
    cases inner with
    | nil =>
      obtain ⟨-, rfl⟩ := List.cons.inj isItem
      exact .inl ⟨front, level, back, layout, List.append_nil _, rfl⟩
    | cons first inner =>
      have isSpace : '\n' ∈ List.replicate (width * level) ' ' := by
        rw [(List.cons.inj isItem).2]
        simp
      have same := (List.mem_replicate.mp isSpace).2
      contradiction

theorem Printed.last_before_line {text : List Char} {c : Char} (printed : Printed width rows words)
    (same : pageLayout rows = front ++ .line level :: back)
    (isFront : chars width front = text ++ [c]) :
    c ≠ ' ' ∧ (c = '\n' → ∃ init other, front = init ++ [.line other]) := by
  rcases List.eq_nil_or_concat front with rfl | ⟨init, last, rfl⟩
  · simp at isFront
  · rw [List.concat_eq_append] at same isFront ⊢
    have member : last ∈ pageLayout rows := by simp [same]
    have neat := neat_pageLayout printed.each
    rw [same, List.append_assoc] at neat
    rw [chars_append, chars_cons, chars_nil, List.append_nil] at isFront
    have onWord : last.isWord = true → c ≠ ' ' ∧ c ≠ '\n' := by
      intro isWord
      obtain ⟨word, -, spelled⟩ := printed.exists_spelled member isWord
      obtain ⟨start, d, isSpelling, noFeed, noSpace⟩ := spelled.ends_plain
      rw [isSpelling, ← List.append_assoc] at isFront
      obtain rfl := List.singleton_inj.mp (List.append_inj' isFront rfl).2
      exact ⟨noSpace, noFeed⟩
    cases last with
    | word text => exact ⟨(onWord rfl).1, fun isFeed => absurd isFeed (onWord rfl).2⟩
    | quoted quote text => exact ⟨(onWord rfl).1, fun isFeed => absurd isFeed (onWord rfl).2⟩
    | space =>
      obtain ⟨item, rest, behind, isWord⟩ := neat.split_space
      obtain rfl := (List.cons.inj behind).1
      contradiction
    | line other =>
      obtain ⟨-, -, -, -, -, ⟨item, rest, behind, isWord, -⟩ | ⟨-, isLevel, -⟩⟩ := neat.split_line
      · obtain rfl := (List.cons.inj behind).1
        contradiction
      · rw [isLevel, chars_line, Nat.mul_zero, List.replicate_zero] at isFront
        obtain rfl := List.singleton_inj.mp (List.append_inj' isFront rfl).2
        exact ⟨by decide, fun _ => ⟨init, other, rfl⟩⟩

/-! ## The lines of a page -/

theorem ends_pageLayout (each : ∀ row ∈ rows, row.IsNeat) (filled : rows ≠ []) :
    ∃ init item, pageLayout rows = init ++ [item, .line 0] ∧ item.isWord = true := by
  induction rows with
  | nil => contradiction
  | cons row rest ih =>
    obtain ⟨isNeat, others⟩ := List.forall_mem_cons.mp each
    by_cases isLast : rest = []
    · subst isLast
      obtain ⟨first, more, isLayout, -⟩ := isNeat.begins
      obtain ⟨seam, neat⟩ := isNeat.neat
      obtain ⟨init, item, isEnd, isWord⟩ := neat.ends (by simp [isLayout])
      exact ⟨init, item, by simp [pageLayout, isEnd], isWord⟩
    · obtain ⟨init, item, isEnd, isWord⟩ := ih others isLast
      obtain ⟨gap, -, layout⟩ := pageLayout_cons row rest
      exact ⟨row.layout ++ (gap ++ init), item, by simp [layout, isEnd], isWord⟩

theorem pageLayout_parted {first second : Row}
    (declares : (first.declares || second.declares) = true) (done rest : List Row) :
    pageLayout (done ++ first :: second :: rest) =
      pageLayout (done ++ [first]) ++ .line 0 :: pageLayout (second :: rest) := by
  induction done with
  | nil => simp [pageLayout, declares]
  | cons row done ih =>
    cases done with
    | nil =>
      simp only [List.cons_append, List.nil_append] at ih ⊢
      rw [pageLayout, ih]
      simp [pageLayout]
    | cons next done =>
      simp only [List.cons_append] at ih ⊢
      rw [pageLayout, ih]
      simp [pageLayout]

theorem Printed.ends (printed : Printed width rows words) (filled : rows ≠ []) :
    ∃ front c, chars width (pageLayout rows) = front ++ [c, '\n'] ∧ c ≠ '\n' := by
  obtain ⟨init, item, layout, isWord⟩ := ends_pageLayout printed.each filled
  obtain ⟨word, -, spelled⟩ := printed.exists_spelled (by simp [layout]) isWord
  obtain ⟨front, c, isSpelling, noFeed, -⟩ := spelled.ends_plain
  refine ⟨chars width init ++ front, c, ?_, noFeed⟩
  rw [layout, chars_append, chars_cons, chars_cons, isSpelling, chars_line]
  simp

theorem Printed.indented {before after : List Char} (printed : Printed width rows words)
    (same : chars width (pageLayout rows) = before ++ after) (begins : BeginsLine before)
    (filled : after ≠ []) :
    after.head? = some '\n' ∨ ∃ c rest,
      after = List.replicate (width * enclosing before after) ' ' ++ c :: rest ∧
        c ≠ ' ' ∧ c ≠ '\n' := by
  have onWord : ∀ item rest, item ∈ pageLayout rows → item.isWord = true →
      ∃ c more, chars width (item :: rest) = c :: more ∧ c ≠ ' ' ∧ c ≠ '\n' := by
    intro item rest member isWord
    obtain ⟨word, -, spelled⟩ := printed.exists_spelled member isWord
    obtain ⟨c, more, isSpelling, noSpace, -, noFeed, -⟩ := spelled.begins
    exact ⟨c, more ++ chars width rest, by rw [chars_cons, isSpelling]; rfl, noSpace, noFeed⟩
  obtain ⟨isWhole, rfl | ⟨text, rfl⟩⟩ := begins
  · cases rows with
    | nil => exact absurd same.symm filled
    | cons row others =>
      obtain ⟨item, more, layout, isWord⟩ := begins_pageLayout (printed.each row (by simp)) others
      obtain ⟨c, rest, isAfter, noSpace, noFeed⟩ := onWord item more (by simp [layout]) isWord
      have nothing : enclosing [] after = 0 := Nat.zero_sub _
      refine .inr ⟨c, rest, ?_, noSpace, noFeed⟩
      rw [nothing, Nat.mul_zero, List.replicate_zero, ← same.trans (List.nil_append after), layout]
      exact isAfter
  · have split : chars width (pageLayout rows) = text ++ '\n' :: after := by simp [same]
    rcases printed.split_feed split with ⟨front, level, back, layout, rfl, rfl⟩ |
      ⟨front, quote, body, back, inner, outer, layout, isItem, -, goesOn, rfl⟩
    · obtain ⟨-, ⟨first, rest, rfl, isWord, isLevel⟩ | ⟨rfl, rfl | ⟨other, rest, rfl⟩⟩⟩ :=
        printed.beginsLine layout
      · obtain ⟨c, more, isFirst, noSpace, noFeed⟩ := onWord first rest (by simp [layout]) isWord
        refine .inr ⟨c, more, ?_, noSpace, noFeed⟩
        rw [← isLevel, isFirst]
      · exact absurd rfl filled
      · exact .inl (by simp [chars_line])
    · rw [List.append_cons] at isItem
      rw [List.append_assoc] at isWhole
      exact absurd isWhole (printed.not_isWhole layout isItem (by simp) goesOn)

theorem Printed.noSpace {before after : List Char} (printed : Printed width rows words)
    (same : chars width (pageLayout rows) = before ++ ' ' :: '\n' :: after) :
    ¬IsWhole before := by
  rw [List.append_cons] at same
  rcases printed.split_feed same with ⟨front, level, back, layout, isFront, -⟩ |
    ⟨front, quote, body, back, inner, outer, layout, isItem, begun, -, isBefore⟩
  · exact absurd rfl (printed.last_before_line layout isFront.symm).1
  · rw [← List.dropLast_append_getLast begun, ← List.append_assoc] at isBefore
    obtain ⟨rfl, isSpace⟩ := List.append_inj' isBefore rfl
    rw [← List.dropLast_append_getLast begun, ← List.singleton_inj.mp isSpace, List.append_assoc]
      at isItem
    refine printed.not_isWhole layout isItem (fun nothing => ?_) (by simp)
    -- The string begins with its quote.
    have member : .quoted quote body ∈ pageLayout rows := by simp [layout]
    obtain ⟨word, -, spelled⟩ := printed.exists_spelled member rfl
    obtain ⟨c, others, begins, noSpace, -⟩ := spelled.begins
    rw [nothing] at isItem
    exact noSpace (List.cons.inj (begins.symm.trans isItem)).1

theorem Printed.filled_before_line (printed : Printed width rows words)
    (same : pageLayout rows = front ++ .line level :: back) :
    chars width front ≠ [] := by
  cases rows with
  | nil => simp [pageLayout] at same
  | cons row others =>
    obtain ⟨item, more, layout, isWord⟩ := begins_pageLayout (printed.each row (by simp)) others
    obtain ⟨word, -, spelled⟩ := printed.exists_spelled (by simp [layout]) isWord
    obtain ⟨c, spelling, isSpelling, -⟩ := spelled.begins
    cases front with
    | nil =>
      obtain ⟨rfl, -⟩ := List.cons.inj (layout.symm.trans same)
      contradiction
    | cons first front =>
      obtain ⟨rfl, -⟩ := List.cons.inj (layout.symm.trans same)
      simp [isSpelling]

theorem Printed.blank_iff (printed : Printed width rows words) (before after : List Char) :
    chars width (pageLayout rows) = before ++ '\n' :: after ∧ BeginsLine before ↔
      ∃ done first second rest, rows = done ++ first :: second :: rest ∧
        (first.declares || second.declares) = true ∧
          before = chars width (pageLayout (done ++ [first])) ∧
            after = chars width (pageLayout (second :: rest)) := by
  constructor
  · rintro ⟨same, isWhole, begins⟩
    rcases printed.split_feed same with ⟨front, level, back, layout, rfl, rfl⟩ |
      ⟨front, quote, body, back, inner, outer, layout, isItem, begun, -, rfl⟩
    · rcases begins with nothing | ⟨text, isFront⟩
      · exact absurd nothing (printed.filled_before_line layout)
      · -- The line feed before the blank line is a line break of the page as well.
        obtain ⟨init, other, rfl⟩ := (printed.last_before_line layout isFront).2 rfl
        rw [List.append_assoc] at layout
        obtain ⟨done, first, second, rest, rfl, declares, isBefore, rfl⟩ :=
          parted_of_lines printed.each layout
        rw [pageLayout_parted declares, ← isBefore, List.append_assoc] at layout
        obtain ⟨-, behind⟩ := List.cons.inj (List.append_cancel_left layout)
        have isLevel : 0 = level := Item.line.inj (List.cons.inj behind).1
        refine ⟨done, first, second, rest, rfl, declares, by rw [isBefore], ?_⟩
        rw [← isLevel, Nat.mul_zero, List.replicate_zero, List.nil_append]
    · exact absurd isWhole (printed.not_isWhole layout isItem begun (by simp))
  · rintro ⟨done, first, second, rest, rfl, declares, rfl, rfl⟩
    have layout := pageLayout_parted declares done rest
    have feed : Item.chars width (.line 0) = ['\n'] := by simp [chars_line]
    have eachBefore : ∀ row ∈ done ++ [first], row.IsNeat := by
      intro row member
      refine printed.each row (List.mem_append.mpr ((List.mem_append.mp member).imp_right ?_))
      exact fun isFirst => List.mem_cons.mpr (.inl (List.mem_singleton.mp isFirst))
    obtain ⟨init, item, isEnd, -⟩ := ends_pageLayout eachBefore (by simp)
    have isBefore : chars width (pageLayout (done ++ [first])) =
        chars width (init ++ [item]) ++ ['\n'] := by
      rw [isEnd, chars_append, chars_append, chars_cons, chars_cons, feed]
      simp
    have split : pageLayout (done ++ first :: second :: rest) =
        (init ++ [item]) ++ .line 0 :: .line 0 :: pageLayout (second :: rest) := by
      rw [layout, isEnd, List.append_assoc, List.append_assoc]
      rfl
    refine ⟨by rw [layout, chars_append, chars_cons, feed]; rfl, ?_⟩
    rw [isBefore]
    exact (printed.beginsLine split).1

end Printed

end Layout

/-! ## Canonical texts -/

/-- The canonical text of a program that was read is the text of a page of its words. -/
theorem Program.exists_printed {limit : Limit} {source : String} {program : Program Span}
    (read : Program.ofText limit source = .ok program) (width : Nat) :
    ∃ words, Printed width program.rows words := by
  obtain ⟨derives, legible⟩ := Program.derives_of_ofText read
  generalize limit.depth = levels at derives
  cases derives with
  | nestedLines lines =>
    obtain ⟨rows, tokens, there, page, -, reading⟩ := Program.reading_page width lines legible
    have layout : program.rows = Program.rows ⟨program.body.map Stmt.shape, ()⟩ := by
      rw [← Program.rows_shape, ← Program.shape_body]
    have items := (page.scans none rfl).items
    have legibleAgain := Reading.ofText_legible (program.format width)
    rw [reading, Reading.precede_tokens, List.append_nil] at legibleAgain
    rw [Reading.ofText, Program.format, Layout.page, String.toList_ofList, layout,
      ← chars_pageLayout] at reading
    rw [layout]
    refine ⟨tokens.map Token.lexeme, ⟨?_, ?_⟩, items, ?_, ?_⟩
    · rw [reading, Reading.precede_tokens, List.append_nil]
    · rw [reading, Reading.precede_ending]
      exact ⟨_, rfl⟩
    · intro word member
      obtain ⟨token, isMember, rfl⟩ := List.mem_map.mp member
      exact (legibleAgain token isMember).1
    · intro row member
      obtain ⟨stmt, isMember, rfl⟩ := List.mem_map.mp member
      obtain ⟨words, typeset⟩ := (lines.typeset legible).each stmt isMember
      exact typeset.isNeat

theorem Program.toList_format (program : Program Span) (width : Int) :
    (program.format width).toList = chars width (pageLayout program.rows) := by
  rw [chars_pageLayout, Program.format, Layout.page, String.toList_ofList]

theorem Program.blank_iff {program : Program Span} {width : Nat} {words : List Lexeme}
    (printed : Printed width program.rows words) (before after : List Char) :
    chars width (pageLayout program.rows) = before ++ '\n' :: after ∧ BeginsLine before ↔
      ∃ front first second back, program.body = front ++ first :: second :: back ∧
        (first.declares || second.declares) = true ∧
          before = (format width { program with body := front ++ [first] }).toList ∧
            after = (format width { program with body := second :: back }).toList := by
  rw [printed.blank_iff]
  constructor
  · rintro ⟨done, first, second, rest, same, declares, rfl, rfl⟩
    obtain ⟨front, others, isBody, rfl, isOthers⟩ := List.map_eq_append_iff.mp same
    obtain ⟨stmt, behind, rfl, rfl, isBehind⟩ := List.map_eq_cons_iff.mp isOthers
    obtain ⟨next, back, rfl, rfl, rfl⟩ := List.map_eq_cons_iff.mp isBehind
    refine ⟨front, stmt, next, back, isBody, declares, ?_, ?_⟩
    · simp [Program.toList_format, Program.rows]
    · simp [Program.toList_format, Program.rows]
  · rintro ⟨front, first, second, back, isBody, declares, rfl, rfl⟩
    refine ⟨Program.rows ⟨front, program.mark⟩, ⟨first.declares, first.layout 0⟩,
      ⟨second.declares, second.layout 0⟩, Program.rows ⟨back, program.mark⟩, ?_, declares, ?_, ?_⟩
    · simp [isBody, Program.rows]
    · simp [Program.toList_format, Program.rows]
    · simp [Program.toList_format, Program.rows]

/-- The canonical text of a program that was read is laid out in lines. It is what the printer writes,
and the printer writes it if a machine word counts the spaces before each line and the machine has
room for the text. -/
theorem Program.format_tidy (limit : Limit) (source : String) (program : Program Span) (width : Nat)
    (read : Program.ofText limit source = .ok program) :
    program.Tidy width (program.format width).toList ∧
      ∀ machine,
        (∀ text, program.write machine (some width) = .ok text → text = program.format width) ∧
          (Draft.Countable width program.drafts → Draft.Room machine width program.drafts →
            program.write machine (some width) = .ok (program.format width)) := by
  obtain ⟨words, printed⟩ := Program.exists_printed read width
  have filled : program.body ≠ [] → program.rows ≠ [] := by simp [Program.rows]
  rw [Program.toList_format]
  refine ⟨⟨?_, ?_, ?_, ?_, ?_⟩, fun machine => ⟨fun text written => ?_, fun countable room => ?_⟩⟩
  · constructor
    · intro nothing
      by_contra nonempty
      obtain ⟨front, c, same, -⟩ := printed.ends (filled nonempty)
      simp [nothing] at same
    · intro nothing
      simp [Program.rows, nothing, pageLayout]
  · exact fun nonempty => printed.ends (filled nonempty)
  · exact fun before after => printed.indented
  · exact Program.blank_iff printed
  · exact fun before after => printed.noSpace
  · exact (Program.write_ok written).1
  · obtain ⟨text, written⟩ := program.exists_write_iff.mpr ⟨countable, room⟩
    rw [written, (Program.write_ok written).1]
    rfl

/-- A block in the head of a method is closed before the lines of the method begin, and the lines of a
string are left as they are. -/
theorem Program.format_tidy_method :
    ∃ program, Program.ofText .standard
        "class A\nend\ndef f(a = fn c -> do\n'x \n\n y'\nend)\nif a\nb\nend\nend\n" =
          .ok program ∧
      program.format 2 =
        "class A\nend\n\ndef f(a = fn c -> do\n  'x \n\n y'\nend)\n  if a\n    b\n  end\nend\n" ∧
      program.Tidy 2 (program.format 2).toList := by
  have passes : ((Program.ofText .standard
      "class A\nend\ndef f(a = fn c -> do\n'x \n\n y'\nend)\nif a\nb\nend\nend\n").toOption.any
      fun program => program.format 2 ==
        "class A\nend\n\ndef f(a = fn c -> do\n  'x \n\n y'\nend)\n  if a\n    b\n  end\nend\n") =
      true := by
    decide +kernel
  obtain ⟨program, read, same⟩ := Program.exists_of_any passes
  exact ⟨program, read, beq_iff_eq.mp same, (Program.format_tidy .standard _ program 2 read).1⟩

end Parlance
