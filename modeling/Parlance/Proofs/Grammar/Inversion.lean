import Parlance.Proofs.Grammar.Derivation

/-!
Contract: what a derivation of a given tree looks like.

Owns: inversions that more than one proof needs. An assignment is read as an expression first: a
derivation of an expression that can be assigned is one of a chain of members, calls and indexes.
-/

namespace Parlance.Grammar

open Lexeme

variable {levels : Nat} {words : List Lexeme} {next : Kind}
variable {value : Expr Unit} {target : Target Unit}

/-- An operand chain that can be assigned has no operators. -/
theorem Derives.indexed_of_binary {looseness : Nat}
    (derives : Derives levels (.binary looseness) words next value)
    (isTarget : value.toTarget? = some target) :
    Derives levels .indexed words next value := by
  induction looseness with
  | zero =>
    cases derives with
    | ofOperand operand =>
      cases operand with
      | ofSigned signed =>
        cases signed with
        | ofIndexed indexed => exact indexed
        | unary isOp operand => contradiction
      | unary isOp operand => contradiction
  | succ looseness ih =>
    cases derives with
    | ofTighter tighter => exact ih tighter
    | binary first isOp rank second => contradiction

/-- An expression that can be assigned is a chain of members, calls and indexes. -/
theorem Derives.indexed_of_target {line : Bool}
    (derives : Derives levels (.expression line) words next value)
    (isTarget : value.toTarget? = some target) :
    Derives levels .indexed words next value := by
  cases derives with
  | ofBinary operands => exact operands.indexed_of_binary isTarget
  | ifLine | ifLineElse | ifBlock | ifBlockElse => contradiction

theorem Derives.words_of_variable {name : String}
    (derives : Derives levels .indexed words next (.variable name ())) :
    ∃ first, words = [first] ∧ first.kind = .name ∧ first.text = name := by
  cases derives with
  | ofMembers members =>
    cases members with
    | ofPrimary primary =>
      cases primary with
      | name isName => exact ⟨_, rfl, isName, rfl⟩

theorem Derives.endsAt {phrase : Phrase} {tree : phrase.Tree Unit}
    (derives : Derives levels phrase words next tree) :
    ∀ block, phrase = .lines block ∨ phrase = .nestedLines block →
      block.endsAt next = true := by
  induction derives with
  | nestedLines lines ih =>
    rintro block (same | same)
    · cases same
    · cases same
      exact ih _ (.inl rfl)
  | noLine ends =>
    rintro block (same | same)
    · cases same
      exact ends
    · cases same
  | emptyLine isBreak rest ih => exact ih
  | line statement isBreak rest _ ih => exact ih
  | _ => simp

theorem Derives.length_of_undivided {part : Part} {bracket : Bracket}
    {values : List (part.Tree Unit)}
    (derives : Derives levels (.items part bracket) words next (values, false)) :
    values.length ≤ 1 := by
  cases derives with
  | noItem => simp
  | lastItem => simp

theorem Derives.filled_of_name {part : Part} {bracket : Bracket} {values : List (part.Tree Unit)}
    {divided : Bool} (derives : Derives levels (.items part bracket) words next (values, divided))
    (isName : leading next words = .name) :
    values ≠ [] := by
  cases derives with
  | noItem before closes =>
    rename_i closing front
    cases front with
    | nil => simp [closes] at isName
    | cons first front => simp [before first (by simp)] at isName
  | lastItem | moreItems => simp

theorem Derives.indent {front : List Lexeme} {part : Part} {bracket : Bracket}
    {values : List (part.Tree Unit)} {divided : Bool}
    (derives : Derives levels (.items part bracket) words next (values, divided))
    (breaks : Breaks front) :
    Derives levels (.items part bracket) (front ++ words) next (values, divided) := by
  cases derives with
  | noItem before closes =>
    rw [← List.append_assoc]
    exact .noItem (breaks.append before) closes
  | lastItem before item after closes =>
    rw [← List.append_assoc]
    exact .lastItem (breaks.append before) item after closes
  | moreItems before item after isComma others =>
    rw [← List.append_assoc]
    exact .moreItems (breaks.append before) item after isComma others

theorem Derives.words_of_variableItem {name : String}
    (derives : Derives levels (.item .expression) words next (.variable name () : Expr Unit)) :
    ∃ first, words = [first] ∧ first.kind = .name ∧ first.text = name := by
  cases derives with
  | expressionItem inner =>
    cases inner with
    | nested expression => exact (expression.indexed_of_target rfl).words_of_variable

theorem Derives.names_of_variables {bracket : Bracket} {values : List (Expr Unit)}
    {names : List String} {divided : Bool}
    (derives : Derives levels (.items .expression bracket) words next (values, divided))
    (areVariables : Expr.variableNames? values = some names) :
    ∀ name ∈ names, ∃ word ∈ words, word.kind = .name ∧ word.text = name := by
  induction values generalizing words names divided with
  | nil =>
    obtain rfl : [] = names := by simpa [Expr.variableNames?] using areVariables
    simp
  | cons value values ih =>
    match value, areVariables with
    | .variable first (), areVariables =>
      obtain ⟨others, found, rfl⟩ := Option.map_eq_some_iff.mp areVariables
      cases derives with
      | lastItem before inner after closes =>
        obtain ⟨word, rfl, isName⟩ := inner.words_of_variableItem
        obtain rfl : [] = others := by simpa [Expr.variableNames?] using found
        simpa using ⟨word, .inr (.inl rfl), isName⟩
      | moreItems before inner after isComma rest =>
        obtain ⟨word, rfl, isName⟩ := inner.words_of_variableItem
        intro name member
        rcases List.mem_cons.mp member with rfl | member
        · exact ⟨word, by simp, isName⟩
        · obtain ⟨other, inRest, isOther⟩ := ih rest found name member
          exact ⟨other, by simp [inRest], isOther⟩

/-- The names of a tuple that can be assigned are among its words, in parentheses. -/
theorem Derives.names_of_target {names : List String}
    (derives : Derives levels .indexed words next value)
    (isTarget : value.toTarget? = some (.names names ())) :
    names ≠ [] ∧ (∃ opening list, words = opening :: list ∧ opening.kind = .symbol .lparen) ∧
      ∀ name ∈ names, ∃ word ∈ words, word.kind = .name ∧ word.text = name := by
  match value, isTarget with
  | .tuple (first :: rest) (), isTarget =>
    obtain ⟨found, areVariables, same⟩ := Option.map_eq_some_iff.mp isTarget
    obtain rfl : found = names := by simpa using same
    have filled : found ≠ [] := by
      rintro rfl
      cases first <;> simp [Expr.variableNames?] at areVariables
    cases derives with
    | ofMembers members =>
      cases members with
      | ofPrimary primary =>
        cases primary with
        | tuple opens list isTuple =>
          refine ⟨filled, ⟨_, _, rfl, opens⟩, fun name member => ?_⟩
          obtain ⟨word, inList, isName⟩ := list.names_of_variables areVariables name member
          exact ⟨word, List.mem_cons_of_mem _ inList, isName⟩

end Parlance.Grammar
