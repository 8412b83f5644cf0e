import Parlance.Proofs.Layout.Stability

/-!
Contract: what stands between the words of a page.

In a neat layout every space and every line break stands directly before a word, and a line is
indented by the number of blocks that are open where it begins. On a page, line breaks that indent
nothing may also stand behind statements. Owns: neat layouts (`Layout.Neat`), that statements and
pages are neat, and where two line breaks of a page follow each other. Does not own: the text of a
layout.

That statements are neat needs no look at them: the compositor puts at most one item before each
word, and it lays every statement out as it is.
-/

namespace Parlance

namespace Layout

/-! ## Neat layouts -/

/-- The level of a line that begins with a word of the given kind, if so much is open. -/
def lineLevel (frames : List Frame) (kind : Kind) : Nat :=
  depth frames - if kind.outdents then 1 else 0

/-- The layout leads from one compositor to another, with nothing out of place between its words.
On a page there may be empty lines, and the layout may end with a line. -/
inductive Neat (onPage : Bool) : Compositor → Layout → Compositor → Prop where
  | nil {desk : Compositor} :
      Neat onPage desk [] desk
  | word {desk next after : Compositor} {item : Item} {layout : Layout}
      (isWord : item.isWord = true) (step : desk.next item.kind = some next)
      (rest : Neat onPage next layout after) :
      Neat onPage desk (item :: layout) after
  | space {desk next after : Compositor} {item : Item} {layout : Layout}
      (isWord : item.isWord = true) (inLine : desk.seam ≠ .line)
      (step : desk.next item.kind = some next) (rest : Neat onPage next layout after) :
      Neat onPage desk (.space :: item :: layout) after
  | line {desk fed next after : Compositor} {item : Item} {layout : Layout}
      (isWord : item.isWord = true) (feed : desk.next .newline = some fed)
      (step : fed.next item.kind = some next) (rest : Neat onPage next layout after) :
      Neat onPage desk (.line (lineLevel fed.frames item.kind) :: item :: layout) after
  | feed {seam : Seam} {after : Compositor} {layout : Layout} (isPage : onPage = true)
      (rest : Neat onPage ⟨[.page], .line⟩ layout after) :
      Neat onPage ⟨[.page], seam⟩ (.line 0 :: layout) after

section Gaps

variable {desk : Compositor} {kind : Kind} {digit : Bool}

theorem length_gap_le (desk : Compositor) (kind : Kind) (digit : Bool) :
    (desk.gap kind digit).length ≤ 1 := by
  unfold Compositor.gap
  split
  · exact Nat.zero_le 1
  · split
    · exact Nat.zero_le 1
    · exact Nat.zero_le 1
    · exact Nat.le_refl 1
    · split
      · exact Nat.le_refl 1
      · exact Nat.zero_le 1
    · exact Nat.le_refl 1

theorem isWord_of_mem_gap {item : Item} (member : item ∈ desk.gap kind digit) :
    item.isWord = false := by
  unfold Compositor.gap at member
  split at member
  · cases member
  · split at member
    · cases member
    · cases member
    · rw [List.mem_singleton.mp member]
      rfl
    · split at member
      · rw [List.mem_singleton.mp member]
        rfl
      · cases member
    · rw [List.mem_singleton.mp member]
      rfl

theorem level_of_gap {level : Nat} (gap : desk.gap kind digit = [.line level]) :
    level = lineLevel desk.frames kind := by
  unfold Compositor.gap at gap
  split at gap
  · cases gap
  · split at gap
    · cases gap
    · cases gap
    · cases gap
      rfl
    · split at gap <;> cases gap
    · cases gap

theorem seam_ne_line_of_gap (gap : desk.gap kind digit = [.space]) : desk.seam ≠ .line := by
  intro isLine
  unfold Compositor.gap at gap
  rw [isLine] at gap
  split at gap <;> cases gap

end Gaps

/-! ## Statements are neat -/

/-- Rows with one word each behind what is no word can be told apart. -/
theorem eq_of_words {front other rest tail : Layout} {item word : Item}
    (noWord : ∀ item ∈ front, item.isWord = false) (noOther : ∀ item ∈ other, item.isWord = false)
    (isItem : item.isWord = true) (isWord : word.isWord = true)
    (same : front ++ item :: rest = other ++ word :: tail) :
    front = other ∧ item = word ∧ rest = tail := by
  induction front generalizing other with
  | nil =>
    cases other with
    | nil => exact ⟨rfl, List.cons.inj same⟩
    | cons first other =>
      have isFirst : item = first := (List.cons.inj same).1
      rw [isFirst, noOther first (by simp)] at isItem
      contradiction
  | cons first front ih =>
    cases other with
    | nil =>
      have isFirst : first = word := (List.cons.inj same).1
      rw [← isFirst, noWord first (by simp)] at isWord
      contradiction
    | cons second other =>
      obtain ⟨rfl, behind⟩ := List.cons.inj same
      obtain ⟨rfl, both⟩ := ih
        (fun item member => noWord item (List.mem_cons_of_mem _ member))
        (fun item member => noOther item (List.mem_cons_of_mem _ member)) behind
      exact ⟨rfl, both⟩

/-- Behind items that wait for the next word, the layout is neat: nothing waits, or the compositor
puts what waits before the first word. -/
def Awaited (desk : Compositor) (waiting layout : Layout) (after : Compositor) : Prop :=
  waiting = [] ∧ Neat false desk layout after ∨
    ∃ item rest next, layout = item :: rest ∧ item.isWord = true ∧
      waiting = desk.gap item.kind (startsWithDigit [item]) ∧
        desk.next item.kind = some next ∧ Neat false next rest after

section Awaited

variable {desk after : Compositor} {waiting layout rest : Layout} {item : Item}

theorem Awaited.neat (awaited : Awaited desk [] layout after) : Neat false desk layout after := by
  rcases awaited with ⟨-, neat⟩ | ⟨item, rest, next, rfl, isWord, -, step, neat⟩
  · exact neat
  · exact .word isWord step neat

theorem Awaited.of_last (awaited : Awaited desk (waiting ++ [item]) layout after) :
    waiting = [] ∧ ∃ word rest next, layout = word :: rest ∧ word.isWord = true ∧
      desk.gap word.kind (startsWithDigit [word]) = [item] ∧
        desk.next word.kind = some next ∧ Neat false next rest after := by
  rcases awaited with ⟨nothing, -⟩ | ⟨word, rest, next, rfl, isWord, isGap, step, neat⟩
  · simp at nothing
  · have short := length_gap_le desk word.kind (startsWithDigit [word])
    rw [← isGap, List.length_append, List.length_singleton] at short
    have nothing : waiting = [] := List.eq_nil_of_length_eq_zero (by omega)
    rw [nothing] at isGap
    exact ⟨nothing, word, rest, next, rfl, isWord, isGap.symm, step, neat⟩

/-- Where a word is laid out as it is, what waits is put before it. -/
theorem eq_gap_of_run (isWord : item.isWord = true) (noWord : ∀ item ∈ waiting, item.isWord = false)
    (lays : desk.run (bare (item :: rest)) = some (waiting ++ item :: rest, after)) :
    ∃ next, waiting = desk.gap item.kind (startsWithDigit [item]) ∧
      desk.next item.kind = some next ∧ next.run (bare rest) = some (rest, after) := by
  rw [bare_of_isWord isWord, Compositor.run, Compositor.put_of_isWord isWord] at lays
  cases step : desk.next item.kind with
  | none => simp [step] at lays
  | some next =>
    cases run : next.run rest.bare with
    | none => simp [step, run] at lays
    | some reply =>
      obtain ⟨out, last⟩ := reply
      simp only [step, run, Option.bind_some, Option.map_some, Option.some.injEq,
        Prod.mk.injEq, List.append_assoc, List.singleton_append] at lays
      obtain ⟨isGap, -, isRest⟩ := eq_of_words (fun _ member => isWord_of_mem_gap member) noWord
        isWord isWord lays.1
      exact ⟨next, isGap.symm, rfl, by rw [run, isRest, lays.2]⟩

theorem awaited_of_run (noWord : ∀ item ∈ waiting, item.isWord = false)
    (lays : desk.run (bare layout) = some (waiting ++ layout, after)) :
    Awaited desk waiting layout after := by
  induction layout generalizing desk waiting with
  | nil =>
    simp only [bare_nil, Compositor.run, List.append_nil, Option.some.injEq, Prod.mk.injEq] at lays
    obtain ⟨rfl, rfl⟩ := lays
    exact .inl ⟨rfl, .nil⟩
  | cons item rest ih =>
    have onWord : item.isWord = true → Awaited desk waiting (item :: rest) after := by
      intro isWord
      obtain ⟨next, isGap, step, run⟩ := eq_gap_of_run isWord noWord lays
      have neat : Awaited next [] rest after := ih (by simp) run
      exact .inr ⟨item, rest, next, rfl, isWord, isGap, step, neat.neat⟩
    have waits : item.isWord = false → ∀ other ∈ waiting ++ [item], other.isWord = false := by
      intro isGap other member
      rcases List.mem_append.mp member with inside | last
      · exact noWord other inside
      · rw [List.mem_singleton.mp last]
        exact isGap
    cases item with
    | word text => exact onWord rfl
    | quoted quote text => exact onWord rfl
    | space =>
      -- A space is passed on to the word behind it.
      rw [bare_space, List.append_cons] at lays
      obtain ⟨rfl, word, more, next, rfl, isWord, gap, step, neat⟩ :=
        (ih (waits rfl) lays).of_last
      exact .inl ⟨rfl, .space isWord (seam_ne_line_of_gap gap) step neat⟩
    | line level =>
      -- A line break changes what is open, and is passed on as well.
      rw [bare_line, Compositor.run, Compositor.put] at lays
      cases feed : desk.next .newline with
      | none => simp [Item.kind, feed] at lays
      | some fed =>
        have run : fed.run (bare rest) = some (waiting ++ .line level :: rest, after) := by
          simpa [Item.kind, feed] using lays
        rw [List.append_cons] at run
        obtain ⟨rfl, word, more, next, rfl, isWord, gap, step, neat⟩ :=
          (ih (waits rfl) run).of_last
        rw [level_of_gap gap]
        exact .inl ⟨rfl, .line isWord feed step neat⟩

end Awaited

/-- A statement of a page is neat, and begins and ends with a word. -/
structure Row.IsNeat (row : Row) : Prop where
  neat : ∃ seam, Neat false ⟨[.page], .line⟩ row.layout ⟨[.page], seam⟩
  begins : ∃ item rest, row.layout = item :: rest ∧ item.isWord = true

/-! ## Pages are neat -/

section Pages

variable {onPage : Bool} {desk middle after : Compositor} {layout back front : Layout}
variable {level : Nat}

theorem Neat.toPage (neat : Neat false desk layout after) : Neat true desk layout after := by
  induction neat with
  | nil => exact .nil
  | word isWord step _ ih => exact .word isWord step ih
  | space isWord inLine step _ ih =>
    exact .space isWord inLine step ih
  | line isWord feed step _ ih => exact .line isWord feed step ih
  | feed isPage => contradiction

theorem Neat.append (first : Neat onPage desk layout middle)
    (second : Neat onPage middle back after) :
    Neat onPage desk (layout ++ back) after := by
  induction first with
  | nil => exact second
  | word isWord step _ ih => exact .word isWord step (ih second)
  | space isWord inLine step _ ih =>
    exact .space isWord inLine step (ih second)
  | line isWord feed step _ ih =>
    exact .line isWord feed step (ih second)
  | feed isPage _ ih => exact .feed isPage (ih second)

theorem neat_pageLayout {rows : List Row} (each : ∀ row ∈ rows, row.IsNeat) :
    Neat true ⟨[.page], .line⟩ (pageLayout rows) ⟨[.page], .line⟩ := by
  induction rows with
  | nil => exact .nil
  | cons row rest ih =>
    obtain ⟨first, others⟩ := List.forall_mem_cons.mp each
    obtain ⟨seam, neat⟩ := first.neat
    obtain ⟨gap, isGap, layout⟩ := pageLayout_cons row rest
    have tail := ih others
    rw [layout]
    refine neat.toPage.append ?_
    rcases isGap with rfl | rfl
    · exact .feed rfl tail
    · exact .feed rfl (.feed rfl tail)

/-! ## Lines of a neat layout -/

theorem Compositor.run_cons {item : Item} {items : List Item} {out : Layout}
    (step : desk.next item.kind = some middle) (run : middle.run items = some (out, after)) :
    desk.run (item :: items) = some (desk.put item ++ out, after) := by
  simp [Compositor.run, step, run]

/-- Before an item that is no word, a neat layout falls into neat ones. -/
theorem Neat.split {item : Item} (neat : Neat onPage desk (front ++ item :: back) after)
    (noWord : item.isWord = false) :
    ∃ out middle, desk.run (bare front) = some (out, middle) ∧
      Neat onPage middle (item :: back) after := by
  generalize whole : front ++ item :: back = layout at neat
  induction neat generalizing front with
  | nil => simp at whole
  | word isWord step _ ih =>
    cases front with
    | nil =>
      obtain ⟨rfl, -⟩ := List.cons.inj whole
      exact absurd isWord (Bool.eq_false_iff.mp noWord)
    | cons first front =>
      obtain ⟨rfl, behind⟩ := List.cons.inj whole
      obtain ⟨out, middle, run, rest⟩ := ih behind
      rw [bare_of_isWord isWord]
      exact ⟨_, middle, Compositor.run_cons step run, rest⟩
  | space isWord inLine step neat ih =>
    rcases front with _ | ⟨first, _ | ⟨second, front⟩⟩
    · obtain ⟨rfl, rfl⟩ := List.cons.inj whole
      exact ⟨[], _, rfl, .space isWord inLine step neat⟩
    · obtain ⟨rfl, -⟩ := List.cons.inj (List.cons.inj whole).2
      exact absurd isWord (Bool.eq_false_iff.mp noWord)
    · obtain ⟨rfl, behind⟩ := List.cons.inj whole
      obtain ⟨rfl, further⟩ := List.cons.inj behind
      obtain ⟨out, middle, run, rest⟩ := ih further
      rw [bare_space, bare_of_isWord isWord]
      exact ⟨_, middle, Compositor.run_cons step run, rest⟩
  | line isWord feed step neat ih =>
    rcases front with _ | ⟨first, _ | ⟨second, front⟩⟩
    · obtain ⟨rfl, rfl⟩ := List.cons.inj whole
      exact ⟨[], _, rfl, .line isWord feed step neat⟩
    · obtain ⟨rfl, -⟩ := List.cons.inj (List.cons.inj whole).2
      exact absurd isWord (Bool.eq_false_iff.mp noWord)
    · obtain ⟨rfl, behind⟩ := List.cons.inj whole
      obtain ⟨rfl, further⟩ := List.cons.inj behind
      obtain ⟨out, middle, run, rest⟩ := ih further
      rw [bare_line, bare_of_isWord isWord]
      exact ⟨_, middle, Compositor.run_cons feed (Compositor.run_cons step run), rest⟩
  | feed isPage neat ih =>
    cases front with
    | nil =>
      obtain ⟨rfl, rfl⟩ := List.cons.inj whole
      exact ⟨[], _, rfl, .feed isPage neat⟩
    | cons first front =>
      obtain ⟨rfl, behind⟩ := List.cons.inj whole
      obtain ⟨out, middle, run, rest⟩ := ih behind
      rw [bare_line]
      exact ⟨_, middle, Compositor.run_cons rfl run, rest⟩

/-- Behind each line stands a word, and the line is indented by what is open there; or the line is
one of a page and indents nothing. -/
theorem Neat.split_line (neat : Neat onPage desk (front ++ .line level :: back) after) :
    ∃ out middle fed, desk.run (bare front) = some (out, middle) ∧
      middle.next .newline = some fed ∧
        ((∃ item rest, back = item :: rest ∧ item.isWord = true ∧
            level = lineLevel fed.frames item.kind) ∨
          onPage = true ∧ level = 0 ∧ fed = ⟨[.page], .line⟩ ∧ Neat onPage fed back after) := by
  obtain ⟨out, middle, run, rest⟩ := neat.split rfl
  cases rest with
  | word isWord => contradiction
  | line isWord feed => exact ⟨out, middle, _, run, feed, .inl ⟨_, _, rfl, isWord, rfl⟩⟩
  | feed isPage neat => exact ⟨out, _, _, run, rfl, .inr ⟨isPage, rfl, rfl, neat⟩⟩

theorem Neat.split_space (neat : Neat onPage desk (front ++ .space :: back) after) :
    ∃ item rest, back = item :: rest ∧ item.isWord = true := by
  obtain ⟨out, middle, -, rest⟩ := neat.split rfl
  cases rest with
  | word isWord => contradiction
  | space isWord => exact ⟨_, _, rfl, isWord⟩

theorem Neat.ends (neat : Neat false desk layout after) (filled : layout ≠ []) :
    ∃ init item, layout = init ++ [item] ∧ item.isWord = true := by
  rcases List.eq_nil_or_concat layout with nothing | ⟨init, last, concat⟩
  · exact absurd nothing filled
  · rw [List.concat_eq_append] at concat
    refine ⟨init, last, concat, ?_⟩
    rw [concat] at neat
    cases last with
    | word text => rfl
    | quoted quote text => rfl
    | space =>
      obtain ⟨item, rest, behind, -⟩ := neat.split_space
      cases behind
    | line level =>
      obtain ⟨-, -, -, -, -, ⟨item, rest, behind, -⟩ | ⟨isPage, -⟩⟩ := neat.split_line
      · cases behind
      · cases isPage

/-! ## Empty lines -/

/-- Two lines that follow each other stand behind a statement, or further on. -/
theorem Row.IsNeat.split_lines {row : Row} {other : Nat} {tail : Layout} (isNeat : row.IsNeat)
    (same : row.layout ++ tail = front ++ .line level :: .line other :: back) :
    ∃ between, front = row.layout ++ between ∧ tail = between ++ .line level :: .line other :: back := by
  rcases List.append_eq_append_iff.mp same with ⟨between, isFront, isTail⟩ | ⟨between, isRow, behind⟩
  · exact ⟨between, isFront, isTail⟩
  · cases between with
    | nil => exact ⟨[], by simpa using isRow.symm, by simpa using behind.symm⟩
    | cons item between =>
      obtain ⟨rfl, further⟩ := List.cons.inj behind
      obtain ⟨seam, neat⟩ := isNeat.neat
      rw [isRow] at neat
      obtain ⟨-, -, -, -, -, ⟨item, rest, rfl, isWord, -⟩ | ⟨isPage, -⟩⟩ := neat.split_line
      · obtain ⟨rfl, -⟩ := List.cons.inj further
        contradiction
      · cases isPage

theorem begins_pageLayout {row : Row} (isNeat : row.IsNeat) (rest : List Row) :
    ∃ item more, pageLayout (row :: rest) = item :: more ∧ item.isWord = true := by
  obtain ⟨gap, -, layout⟩ := pageLayout_cons row rest
  obtain ⟨item, more, isRow, isWord⟩ := isNeat.begins
  exact ⟨item, more ++ (gap ++ pageLayout rest), by rw [layout, isRow, List.cons_append], isWord⟩

/-- What stands behind a statement and before another one. -/
def between (row next : Row) : Layout :=
  if row.declares || next.declares then [.line 0, .line 0] else [.line 0]

/-- The page before and the page behind an empty line that parts them. -/
def Parted (rows : List Row) (before after : Layout) : Prop :=
  ∃ done first second rest, rows = done ++ first :: second :: rest ∧
    (first.declares || second.declares) = true ∧ before = pageLayout (done ++ [first]) ∧
      after = pageLayout (second :: rest)

theorem Parted.cons {next : Row} {rest : List Row} {before after : Layout} (row : Row)
    (parted : Parted (next :: rest) before after) :
    Parted (row :: next :: rest) (row.layout ++ (between row next ++ before)) after := by
  obtain ⟨done, first, second, tail, isRows, declares, rfl, rfl⟩ := parted
  refine ⟨row :: done, first, second, tail, by rw [isRows, List.cons_append], declares, ?_, rfl⟩
  cases done with
  | nil =>
    obtain ⟨rfl, -⟩ := List.cons.inj isRows
    rfl
  | cons head done =>
    obtain ⟨rfl, -⟩ := List.cons.inj isRows
    rfl

/-- On a page two lines follow each other only between two statements of which one declares
something, and no third line follows them. -/
theorem parted_of_lines {rows : List Row} {other : Nat} (each : ∀ row ∈ rows, row.IsNeat)
    (same : pageLayout rows = front ++ .line level :: .line other :: back) :
    Parted rows (front ++ [.line level]) back := by
  induction rows generalizing front with
  | nil => simp [pageLayout] at same
  | cons row rest ih =>
    obtain ⟨isNeat, others⟩ := List.forall_mem_cons.mp each
    cases rest with
    | nil =>
      obtain ⟨gap, -, isTail⟩ := isNeat.split_lines same
      cases gap <;> simp at isTail
    | cons next rest =>
      obtain ⟨gap, rfl, isTail⟩ := isNeat.split_lines same
      obtain ⟨item, more, begins, isWord⟩ :=
        begins_pageLayout (others next (by simp)) rest
      have further : ∀ front, gap = between row next ++ front →
          pageLayout (next :: rest) = front ++ .line level :: .line other :: back →
            Parted (row :: next :: rest) (row.layout ++ gap ++ [.line level]) back := by
        intro front isGap isRest
        have parted := (ih others isRest).cons row
        rwa [isGap, List.append_assoc, List.append_assoc]
      have isTail : between row next ++ pageLayout (next :: rest) =
          gap ++ .line level :: .line other :: back := isTail
      cases declares : row.declares || next.declares with
      | false =>
        have isBetween : between row next = [.line 0] := by simp [between, declares]
        rw [isBetween] at isTail
        rcases gap with _ | ⟨first, front⟩
        · rw [begins] at isTail
          obtain ⟨rfl, -⟩ := List.cons.inj (List.cons.inj isTail).2
          contradiction
        · obtain ⟨rfl, isRest⟩ := List.cons.inj isTail
          exact further front (by rw [isBetween]; rfl) isRest
      | true =>
        have isBetween : between row next = [.line 0, .line 0] := by simp [between, declares]
        rw [isBetween] at isTail
        rcases gap with _ | ⟨first, _ | ⟨second, front⟩⟩
        · obtain ⟨isLine, behind⟩ := List.cons.inj isTail
          obtain ⟨-, isRest⟩ := List.cons.inj behind
          refine ⟨[], row, next, rest, rfl, declares, ?_, isRest.symm⟩
          rw [List.append_nil, ← isLine]
          rfl
        · rw [begins] at isTail
          obtain ⟨rfl, -⟩ := List.cons.inj (List.cons.inj (List.cons.inj isTail).2).2
          contradiction
        · obtain ⟨rfl, behind⟩ := List.cons.inj isTail
          obtain ⟨rfl, isRest⟩ := List.cons.inj behind
          exact further front (by rw [isBetween]; rfl) isRest

end Pages

end Layout

open Layout

theorem Stmt.Typeset.isNeat {words : List Lexeme} {stmt : Stmt Unit}
    (typeset : Stmt.Typeset words stmt) :
    Row.IsNeat ⟨stmt.declares, stmt.layout 0⟩ := by
  have lays := (typeset.enters [.page] .line rfl fun _ => rfl).lays
  have level : depth [.page] = 0 := rfl
  rw [lead_line (typeset.leads _), level] at lays
  have noWord : ∀ item ∈ [Item.line 0], item.isWord = false := by
    intro item member
    rw [List.mem_singleton.mp member]
    rfl
  have awaited : Awaited ⟨[.page], .line⟩ ([] ++ [.line 0]) (stmt.layout 0) ⟨[.page], stmt.seam⟩ :=
    awaited_of_run noWord lays
  obtain ⟨-, item, rest, next, layout, isWord, -, step, neat⟩ := awaited.of_last
  refine ⟨⟨stmt.seam, ?_⟩, item, rest, layout, isWord⟩
  rw [layout]
  exact .word isWord step neat

end Parlance
