import Parlance.Proofs.Layout.RoundTrip
import Parlance.Proofs.Layout.StatementTypesetting

/-!
Contract: a canonical text that can be read stays as it is when what was read is written.

What is read from a canonical text may be another program than the one it was written from: names in
parentheses lose them, and in the default of a parameter the names behind the first then become
parameters. The two programs have the same words all the same, and the compositor lays out the same
words in one way only. Owns: the comparison of pages and the theorem.
-/

namespace Parlance

open Grammar Layout Lexeme

/-! ## Pages -/

section Pages

variable {items : List Item} {body : List (Stmt Unit)} {words : List Lexeme} {stmt : Stmt Unit}

/-- The items of a page are those of its statements. -/
theorem Layout.paged_pageLayout (each : ∀ stmt ∈ body, ∃ row, Stmt.Typeset row stmt) :
    Paged (bare (pageLayout (Program.rows ⟨body, ()⟩))) body := by
  induction body with
  | nil => exact .nil
  | cons first others ih =>
    obtain ⟨⟨row, typeset⟩, rest⟩ := List.forall_mem_cons.mp each
    have tail := ih rest
    obtain ⟨gap, isGap, layout⟩ := pageLayout_cons ⟨first.declares, first.layout 0⟩
      (Program.rows ⟨others, ()⟩)
    have whole : pageLayout (Program.rows ⟨first :: others, ()⟩) = _ := layout
    rw [whole, bare_append]
    rcases isGap with rfl | rfl
    · exact .row typeset tail
    · exact .row typeset (.blank tail)

theorem Layout.Paged.taken (paged : Paged items body) :
    (Compositor.run ⟨[.page], .line⟩ items).isSome = true := by
  induction paged with
  | nil => rfl
  | @blank items body rest ih =>
    have step : Compositor.next ⟨[.page], .line⟩ (Item.kind (.line 0)) =
        some ⟨[.page], .line⟩ := rfl
    simpa [Compositor.run, step] using ih
  | @row words items stmt body first rest ih =>
    have lays := (first.enters [.page] .line rfl fun _ => rfl).lays
    have step : Compositor.next ⟨[.page], stmt.seam⟩ (Item.kind (.line 0)) =
        some ⟨[.page], .line⟩ := rfl
    have level : depth [.page] = 0 := rfl
    rw [level] at lays
    simpa [Compositor.run_append, lays, Compositor.run, step] using ih

theorem Stmt.Typeset.run (typeset : Stmt.Typeset words stmt) :
    Compositor.run ⟨[], .start⟩ (bare (stmt.layout 0)) =
      some (stmt.layout 0, ⟨[], stmt.seam⟩) :=
  (typeset.enters [] .start rfl fun _ => rfl).sets.lays

/-- A line break behind a statement by itself does not belong to it. -/
theorem Layout.run_line_of_run {out : Layout} {front rest : List Item} {seam : Seam}
    (run : Compositor.run ⟨[], .start⟩ front = some (out, ⟨[], seam⟩)) :
    Compositor.run ⟨[], .start⟩ (front ++ .line 0 :: rest) = none := by
  have refused : Compositor.next ⟨[], seam⟩ (Item.kind (.line 0)) = none := rfl
  simp [Compositor.run_append, run, Compositor.run, refused]

/-- Two statements that begin the same page end at the same line break. -/
theorem Layout.eq_of_lines {out more : Layout} {front other rest tail : List Item}
    {seam last : Seam} (run : Compositor.run ⟨[], .start⟩ front = some (out, ⟨[], seam⟩))
    (runOther : Compositor.run ⟨[], .start⟩ other = some (more, ⟨[], last⟩))
    (same : front ++ .line 0 :: rest = other ++ .line 0 :: tail) :
    front = other ∧ rest = tail := by
  rcases List.append_eq_append_iff.mp same with
    ⟨between, isOther, lines⟩ | ⟨between, isFront, lines⟩
  · cases between with
    | nil => exact ⟨by simp [isOther], by simpa using lines⟩
    | cons item between =>
      obtain rfl := (List.cons.inj lines).1
      rw [isOther, run_line_of_run run] at runOther
      contradiction
  · cases between with
    | nil => exact ⟨by simp [isFront], by simpa using lines.symm⟩
    | cons item between =>
      obtain rfl := (List.cons.inj lines).1
      rw [isFront, run_line_of_run runOther] at run
      contradiction

/-- A statement declares something exactly if it cannot stand behind a word. -/
theorem Stmt.Typeset.declares_eq (typeset : Stmt.Typeset words stmt) :
    stmt.declares = (Compositor.run ⟨[], .apart⟩ (bare (stmt.layout 0))).isNone := by
  cases declares : stmt.declares with
  | false =>
    have lays := (typeset.enters [] .apart rfl (by simp [declares])).lays
    rw [show depth [] = 0 from rfl] at lays
    simp [lays]
  | true =>
    have refused : ∀ word : Keyword, word = .kwClass ∨ word = .kwDef → ∀ layout,
        (Compositor.run ⟨[], .apart⟩ (bare (.word word.spelling :: layout))).isNone = true := by
      intro word isDeclaration layout
      have step : Compositor.next ⟨[], .apart⟩ (.keyword word) = none := by
        rcases isDeclaration with rfl | rfl <;> rfl
      rw [bare_word, Compositor.run, Item.kind, (Spelt.keyword word).isKind, step]
      rfl
    cases stmt with
    | classBare | classFields => exact (refused .kwClass (.inl rfl) _).symm
    | methodValue | methodBlock => exact (refused .kwDef (.inr rfl) _).symm
    | _ => contradiction

theorem Stmt.Typeset.bare_ne_nil (typeset : Stmt.Typeset words stmt) :
    bare (stmt.layout 0) ≠ [] := by
  intro nothing
  have run := typeset.run
  rw [nothing, Compositor.run, Option.some.injEq, Prod.mk.injEq] at run
  have leads := typeset.leads 0
  rw [← run.1] at leads
  contradiction

/-- The statements of a page are laid out in one way only. -/
theorem Layout.Paged.rows_eq {others : List (Stmt Unit)} (paged : Paged items body)
    (again : Paged items others) :
    Program.rows ⟨body, ()⟩ = Program.rows ⟨others, ()⟩ := by
  have nothing : Compositor.run ⟨[], .start⟩ [] = some ([], ⟨[], .start⟩) := rfl
  induction paged generalizing others with
  | nil =>
    generalize same : ([] : List Item) = whole at again
    cases again with
    | nil => rfl
    | blank | row => simp at same
  | @blank items body rest ih =>
    generalize same : .line 0 :: items = whole at again
    cases again with
    | nil => simp at same
    | blank restAgain =>
      obtain rfl := (List.cons.inj same).2
      exact ih restAgain
    | row first restAgain =>
      exact absurd (eq_of_lines nothing first.run same).1.symm first.bare_ne_nil
  | @row words items stmt body first rest ih =>
    generalize same : bare (stmt.layout 0) ++ .line 0 :: items = whole at again
    cases again with
    | nil => simp at same
    | blank restAgain =>
      exact absurd (eq_of_lines first.run nothing same).1 first.bare_ne_nil
    | @row wordsAgain itemsAgain stmtAgain bodyAgain firstAgain restAgain =>
      obtain ⟨sameItems, rfl⟩ := eq_of_lines first.run firstAgain.run same
      have run := first.run
      rw [sameItems, firstAgain.run, Option.some.injEq, Prod.mk.injEq] at run
      have sameDeclares : stmt.declares = stmtAgain.declares := by
        rw [first.declares_eq, firstAgain.declares_eq, sameItems]
      simp only [Program.rows, List.map_cons, List.cons.injEq, Row.mk.injEq]
      exact ⟨⟨sameDeclares, run.1.symm⟩, ih restAgain⟩

end Pages

/-! ## Writing what was read -/

theorem Program.rows_of_ofText_format {limit other : Limit} {source : String}
    {program again : Program Span} {width : Int} (read : Program.ofText limit source = .ok program)
    (readAgain : Program.ofText other (program.format width) = .ok again) :
    again.rows = program.rows := by
  obtain ⟨derives, legible⟩ := Program.derives_of_ofText read
  obtain ⟨derivesAgain, legibleAgain⟩ := Program.derives_of_ofText readAgain
  generalize limit.depth = levels at derives
  cases derives with
  | nestedLines lines =>
    obtain ⟨rows, tokens, there, page, -, reading⟩ := Program.reading_page width lines legible
    have items := (page.scans none rfl).items
    rw [reading, Reading.precede_tokens, List.append_nil] at derivesAgain legibleAgain
    have paged := paged_pageLayout (lines.typeset legible).each
    rw [← items] at paged
    have pagedAgain := (derivesAgain.typeset legibleAgain).page paged.taken
    have same := pagedAgain.rows_eq paged
    rwa [← Program.shape_body, ← Program.shape_body, Program.rows_shape, Program.rows_shape]
      at same

end Parlance
