import Parlance.Proofs.Grammar.Acceptance

/-!
Contract: the nodes of a program are slices of its text.

The mark of a node reaches from the first character of its first token to the last character of its
last token. The children of a node stand in this stretch, one behind the other in the order of
their fields. If a statement or an expression stands alone in a text, with nothing around it, it is
read as the same node again. Owns: where the nodes of a program stand (`Laid`, `Stands`), and the
theorem for texts.
-/

namespace Parlance

namespace Grammar

open Parlance.Parser

variable {limit : Limit} {depth : Nat} {source : String} {node : Node Span}

/-! ## Every node fits a row -/

theorem Rows.mem {fits : Option Kind → List Token → Node Span → Prop} {before : Option Kind}
    {tokens : List Token} {nodes : List (Node Span)} (rows : Rows fits before tokens nodes)
    (member : node ∈ nodes) :
    ∃ front own back, tokens = front ++ (own ++ back) ∧ fits (kindBehind before front) own node := by
  induction rows with
  | done => cases member
  | skip more ih =>
    obtain ⟨front, own, back, rfl, fitting⟩ := ih member
    exact ⟨_ :: front, own, back, rfl, fitting⟩
  | child first more ih =>
    rename_i before own tokens child nodes
    rcases List.mem_cons.mp member with rfl | behind
    · exact ⟨[], own, tokens, rfl, first⟩
    · obtain ⟨front, inner, back, rfl, fitting⟩ := ih behind
      refine ⟨own ++ front, inner, back, (List.append_assoc _ _ _).symm, ?_⟩
      rw [kindBehind_append]
      exact fitting

/-- If the statements of a program fit rows of its tokens, so do all its nodes. -/
theorem Rows.fitsNode {program : Program Span} {tokens : List Token}
    (rows : Rows (Fits depth) none tokens (program.body.map .stmt)) (has : program.Has node) :
    ∃ front own back, tokens = front ++ (own ++ back) ∧
      Fits depth (kindBehind none front) own node := by
  induction has with
  | body member => exact rows.mem (List.mem_map_of_mem member)
  | child has member ih =>
    obtain ⟨front, own, back, rfl, fits⟩ := ih
    cases fits with
    | mk quiet mark forms inner =>
      obtain ⟨innerFront, row, innerBack, rfl, fitting⟩ := inner.mem member
      refine ⟨front ++ innerFront, row, innerBack ++ back, by simp, ?_⟩
      rw [kindBehind_append]
      exact fitting

/-! ## Stretches of nodes -/

/-- Between the offsets `first` and `behind` of a text the marks of the nodes cover stretches, one
behind the other. -/
inductive Laid (source : List Char) : Nat → List (Node Span) → Nat → Prop where
  | nothing {first behind : Nat} (ordered : first ≤ behind) :
      Laid source first [] behind
  | node {first start stop behind : Nat} {node : Node Span} {nodes : List (Node Span)}
      (after : first ≤ start) (covers : node.mark.Covers source start stop)
      (more : Laid source stop nodes behind) :
      Laid source first (node :: nodes) behind

theorem Laid.weaken {text : List Char} {earlier first behind : Nat} {nodes : List (Node Span)}
    (laid : Laid text first nodes behind) (less : earlier ≤ first) :
    Laid text earlier nodes behind := by
  cases laid with
  | nothing ordered => exact .nothing (Nat.le_trans less ordered)
  | node after covers more => exact .node (Nat.le_trans less after) covers more

/-- A row that forms a node neither begins nor ends with a line break. -/
theorem Forms.endTokens {row : List Token} (forms : Forms depth (row.map Token.lexeme) node) :
    ∃ first last, row.head? = some first ∧ row.getLast? = some last ∧
      first.kind ≠ .newline ∧ last.kind ≠ .newline := by
  obtain ⟨⟨firstWord, rest, begins, opens⟩, front, lastWord, stops, ends⟩ := forms.ends
  have isFirst : row.head?.map Token.lexeme = some firstWord := by
    rw [← List.head?_map, begins]
    rfl
  have isLast : row.getLast?.map Token.lexeme = some lastWord := by
    rw [← List.getLast?_map, stops, List.getLast?_concat]
  obtain ⟨first, sameFirst, rfl⟩ := Option.map_eq_some_iff.mp isFirst
  obtain ⟨last, sameLast, rfl⟩ := Option.map_eq_some_iff.mp isLast
  exact ⟨first, last, sameFirst, sameLast, opens, ends⟩

theorem Rows.laid {text : List Char} {before : Option Kind} {tokens : List Token}
    {nodes : List (Node Span)} {first behind : Nat} (rows : Rows (Fits depth) before tokens nodes)
    (placed : Placed text first tokens behind) :
    Laid text first nodes behind := by
  induction rows generalizing first with
  | done => exact .nothing placed.le
  | skip more ih =>
    cases placed with
    | token after ordered covers rest =>
      exact (ih rest).weaken (Nat.le_trans after ordered)
  | child fits more ih =>
    obtain ⟨middle, own, rest⟩ := placed.split
    cases fits with
    | mk quiet mark forms inner =>
      obtain ⟨token, last, isFirst, isLast, opens, ends⟩ := forms.endTokens
      obtain ⟨start, stop, after, upTo, -, covers⟩ := own.covers isFirst isLast opens ends
      rw [← mark] at covers
      exact .node after covers ((ih rest).weaken upTo)

/-! ## Nodes alone -/

/-- The part of a text from one offset to another. -/
def slice (source : String) (start behind : Nat) : String :=
  .ofList ((source.toList.drop start).take (behind - start))

/-- The node is read from a row of tokens of the text, and stands at a stretch of the text.

The row stands in the stretch and its words form the node. The mark of the node is the span of the
row and covers the whole stretch. The children stand in the stretch, one behind the other. A
statement or an expression is also read if its stretch of text stands alone. -/
structure Stands (limit : Limit) (source : String) (node : Node Span) (row : List Token)
    (start behind : Nat) : Prop where
  tokens : row <:+: (Reading.ofText source).tokens
  forms : Forms limit.depth (row.map Token.lexeme) node
  placed : Placed source.toList start row behind
  mark : node.mark = rowSpan row
  covers : node.mark.Covers source.toList start behind
  children : Laid source.toList start node.children behind
  alone : ∀ stmt, node.alone? = some stmt →
    ∃ program, Program.ofText limit (slice source start behind) = .ok program ∧
      program.shape = ⟨[stmt], ()⟩

theorem Fits.stands {front row back : List Token}
    (tokens : (Reading.ofText source).tokens = front ++ (row ++ back))
    (fits : Fits limit.depth (kindBehind none front) row node) :
    ∃ start behind, Stands limit source node row start behind := by
  cases fits with
  | mk quiet mark forms inner =>
    have placed := Reading.ofText_placed source
    rw [tokens] at placed
    obtain ⟨_, -, fromRow⟩ := placed.split
    obtain ⟨_, rowPlaced, -⟩ := fromRow.split
    obtain ⟨first, last, isFirst, isLast, opens, ends⟩ := forms.endTokens
    obtain ⟨start, behind, -, -, within, covers⟩ := rowPlaced.covers isFirst isLast opens ends
    obtain ⟨words, span, ending⟩ :=
      Reading.ofText_slice tokens isFirst isLast opens ends quiet covers
    refine ⟨start, behind, ?_, forms, within, mark, ?_, inner.laid within, ?_⟩
    · rw [tokens]
      exact ⟨front, back, List.append_assoc _ _ _⟩
    · rw [mark]
      exact covers
    · intro stmt isAlone
      have derives : Derives limit.depth (.nestedLines .program)
          (row.map Token.lexeme ++ [⟨.newline, "", ""⟩]) .endOfInput [stmt] :=
        forms.oneLine isAlone rfl
      rw [← words] at derives
      obtain ⟨program, accepted, shapes⟩ := Program.ofReading_of_derives ending derives
      exact ⟨program, accepted, Program.shape_eq_iff.mpr shapes⟩

end Grammar

open Grammar

/-! ## Programs -/

/-- The statements of a program that is read from a text fit rows of its tokens, and its own mark
reaches from the start of the text to its end. -/
theorem Program.rows_of_ofText {limit : Limit} {source : String} {program : Program Span}
    (accepted : Program.ofText limit source = .ok program) :
    Rows (Fits limit.depth) none (Reading.ofText source).tokens (program.body.map .stmt) ∧
      program.mark = ⟨1, 1, lineAt source.toList, columnAt source.toList, 0⟩ := by
  have begun : (Reading.ofText source).Begun .start source.toList := Reading.readOn_begun _ _ _
  have inside : ∀ token ∈ (Reading.ofText source).tokens, token.kind ≠ .endOfInput :=
    fun token member => (begun.tokens token member).1
  obtain ⟨stop, next, run, mark⟩ := Program.ofReading_eq_ok_iff.mp accepted
  obtain ⟨whole, span, finished⟩ := programParts_whole inside run
  obtain ⟨taken, leaves, linesOf⟩ := (runs_programParts limit _ rfl rfl).leaves _ _ run
  have all : (Reading.ofText source).tokens = taken := by
    rw [← List.append_nil taken, ← whole]
    exact leaves.tokens
  constructor
  · rw [all]
    exact linesOf.strung none rfl
  · obtain ⟨-, seen⟩ := run_block_of_programParts run
    have ending : next.ending = .finished span :=
      ((programParts limit).leads _ _ _ run).ending.trans finished
    have isStop : stop = .endOfInput span := by
      simpa [Cursor.peek, Cursor.atEnd, whole, ending] using seen.symm
    rw [mark, isStop, (Reading.ofText_byPieces source).finishes finished, Position.afterAll_start]
    rfl

/-- The value of a program that is one assignment. -/
def Program.assigned? {σ : Type} (program : Program σ) : Option (Expr σ) :=
  match program.body with
  | [.assign _ _ value _] => some value
  | _ => none

theorem Program.exists_of_assigned? {σ : Type} {program : Program σ} {check : Expr σ → Bool}
    (passes : program.assigned?.any check = true) :
    ∃ value, program.Has (.expr value) ∧ check value = true := by
  unfold Program.assigned? at passes
  split at passes
  · rename_i target op value mark body
    refine ⟨value, .child (.body (body ▸ List.mem_singleton_self _)) ?_, passes⟩
    exact List.mem_cons_of_mem _ (List.mem_singleton_self _)
  · contradiction

/-- The nodes of a program that is read from a text are slices of the text. The program itself
reaches over the whole text and its statements stand in it one behind the other; each node below it
stands at the stretch that its mark covers, with its children in that stretch, and if it is a
statement or an expression it is read from that stretch alone. -/
theorem Program.ofText_nodes_stand (limit : Limit) (source : String) (program : Program Span)
    (accepted : Program.ofText limit source = .ok program) :
    program.mark = ⟨1, 1, lineAt source.toList, columnAt source.toList, 0⟩ ∧
      Laid source.toList 0 (program.body.map .stmt) source.toList.length ∧
      ∀ node, program.Has node → ∃ row start behind, Stands limit source node row start behind := by
  obtain ⟨rows, mark⟩ := Program.rows_of_ofText accepted
  refine ⟨mark, rows.laid (Reading.ofText_placed source), ?_⟩
  intro node has
  obtain ⟨front, row, back, tokens, fits⟩ := rows.fitsNode has
  obtain ⟨start, behind, stands⟩ := fits.stands tokens
  exact ⟨row, start, behind, stands⟩

/-- The value that is assigned behind a comment line is read alone as well. -/
theorem Program.stands_signed_element :
    ∃ program value alone,
      Program.ofText .standard "# one\nx = -y[0] # two\n" = .ok program ∧
        program.Has (.expr value) ∧ value.mark = ⟨2, 5, 2, 9, 10⟩ ∧
        Program.ofText .standard "-y[0]" = .ok alone ∧
        alone.shape = ⟨[.expression value.shape ()], ()⟩ := by
  have passes : (Program.ofText .standard "# one\nx = -y[0] # two\n").toOption.any
      (fun program => program.assigned?.any (·.mark == ⟨2, 5, 2, 9, 10⟩)) = true := by
    decide +kernel
  obtain ⟨program, accepted, isAssign⟩ := Program.exists_of_any passes
  obtain ⟨value, has, isMark⟩ := Program.exists_of_assigned? isAssign
  have marked : value.mark = ⟨2, 5, 2, 9, 10⟩ := eq_of_beq isMark
  obtain ⟨row, start, behind, stands⟩ :=
    (Program.ofText_nodes_stand .standard _ program accepted).2.2 (.expr value) has
  have covers : value.mark.Covers "# one\nx = -y[0] # two\n".toList 10 15 := by
    rw [marked]
    constructor <;> decide
  obtain ⟨rfl, rfl⟩ := stands.covers.unique covers
  obtain ⟨alone, again, shape⟩ := stands.alone _ rfl
  exact ⟨program, value, alone, accepted, has, marked, again, shape⟩

end Parlance
