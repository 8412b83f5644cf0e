import Parlance.Proofs.Layout.RoundTrip
import Parlance.Proofs.Syntax.Nesting

/-!
Contract: what the limit on nesting does.

A limit admits the programs whose levels it can count, and has no other effect: what is read or
rejected under a limit is read or rejected in the same way under every greater one, unless it was
rejected for want of levels, and then a greater limit gets at least as far. Owns: that a program has
no more levels than its limit, and the theorem about two limits. Does not own: how parsers with
different numbers of levels agree.
-/

namespace Parlance

/-! ## Levels of phrases -/

namespace Grammar

def Part.levels : (part : Part) → part.Tree Unit → Nat
  | .expression, value => Expr.levels value + 1
  | .entry, tree => Entry.levels tree
  | .param, tree => Param.levels tree

def Part.allLevels : (part : Part) → List (part.Tree Unit) → Nat
  | .expression, values => Expr.fullLevels values
  | .entry, entries => Entry.allLevels entries
  | .param, params => Param.allLevels params

theorem Part.allLevels_nil (part : Part) : part.allLevels [] = 0 := by
  cases part <;> rfl

theorem Part.allLevels_cons (part : Part) (first : part.Tree Unit) (rest : List (part.Tree Unit)) :
    part.allLevels (first :: rest) = max (part.levels first) (part.allLevels rest) := by
  cases part <;> rfl

def Phrase.levels : (phrase : Phrase) → phrase.Tree Unit → Nat
  | .lines _, body => Stmt.allLevels body
  | .nestedLines _, body => Stmt.allLevels body + 1
  | .statement, stmt => Stmt.levels stmt
  | .short _, stmt => Stmt.levels stmt
  | .expression _, value => Expr.levels value
  | .nested _, value => Expr.levels value + 1
  | .binary _, value => Expr.levels value
  | .prefixed _, value => Expr.levels value
  | .indexed, value => Expr.levels value
  | .members, value => Expr.levels value
  | .primary, value => Expr.levels value
  | .item part, tree => part.levels tree
  | .items part _, list => part.allLevels list.1

theorem Target.levels_le_of_toTarget? {value : Expr Unit} {target : Target Unit}
    (isTarget : value.toTarget? = some target) :
    target.levels ≤ value.levels := by
  match value, isTarget with
  | .variable name (), isTarget | .access owner member (), isTarget
  | .index owner place (), isTarget =>
    obtain rfl := Option.some.inj isTarget
    exact Nat.le_refl _
  | .tuple (first :: rest) (), isTarget =>
    obtain ⟨names, -, rfl⟩ := Option.map_eq_some_iff.mp isTarget
    exact Nat.zero_le _

theorem Derives.levels_le {levels : Nat} {phrase : Phrase} {words : List Lexeme} {next : Kind}
    {tree : phrase.Tree Unit} (derives : Derives levels phrase words next tree) :
    phrase.levels tree ≤ levels := by
  induction derives with
  | nested _ inner | nestedLines _ inner => exact Nat.succ_le_succ inner
  | number | string | boolean | nil | name | path | emptyDictionary | breakLoop | continueLoop
  | returnNothing | use | plainItem | noLine => exact Nat.zero_le _
  -- Rules whose tree has the levels of its only part.
  | ofPrimary _ inner | ofMembers _ inner | ofIndexed _ inner | ofSigned _ inner
  | ofOperand _ inner | ofTighter _ inner | ofBinary _ inner | ofShort _ inner
  | unary _ _ inner | access _ _ _ inner | returnValue _ _ inner | ofExpression _ inner
  | expressionItem _ inner | entryItem _ _ _ inner | defaultedItem _ _ _ inner
  | tuple _ _ _ inner | dictionary _ _ _ inner | array _ _ inner
  | closureLine _ _ _ _ _ inner | closureBlock _ _ _ _ _ _ _ inner
  | classBare _ _ _ _ _ inner | emptyLine _ _ inner => exact inner
  | grouping _ _ list => exact Nat.le_trans (Nat.le_max_left _ _) list
  -- Rules whose tree has the levels of the deepest of several parts.
  | call _ _ _ target args => exact Nat.max_le.mpr ⟨target, args⟩
  | index _ _ _ _ target place => exact Nat.max_le.mpr ⟨target, place⟩
  | binary _ _ _ _ left right => exact Nat.max_le.mpr ⟨left, right⟩
  | ifLine _ _ _ _ _ condition thenDo => exact Nat.max_le.mpr ⟨condition, thenDo⟩
  | ifLineElse _ _ _ _ _ _ condition thenDo elseDo =>
    exact Nat.max_le.mpr ⟨condition, Nat.max_le.mpr ⟨thenDo, elseDo⟩⟩
  | ifBlock _ _ _ _ _ condition thenDo => exact Nat.max_le.mpr ⟨condition, thenDo⟩
  | ifBlockElse _ _ _ _ _ _ _ _ condition thenDo elseDo =>
    exact Nat.max_le.mpr ⟨condition, Nat.max_le.mpr ⟨thenDo, elseDo⟩⟩
  | assign _ isTarget _ _ assigned value =>
    have target := Nat.le_trans (Target.levels_le_of_toTarget? isTarget) assigned
    exact Nat.max_le.mpr ⟨Nat.succ_le_succ target, value⟩
  | assignNames _ _ _ _ value =>
    exact Nat.max_le.mpr ⟨Nat.le_trans (Nat.succ_le_succ (Nat.zero_le _)) value, value⟩
  | classFields _ _ _ _ _ _ _ fields body => exact Nat.max_le.mpr ⟨fields, body⟩
  | methodValue _ _ _ _ _ _ params value => exact Nat.max_le.mpr ⟨params, value⟩
  | methodBlock _ _ _ _ _ _ _ params body => exact Nat.max_le.mpr ⟨params, body⟩
  | forLoop _ _ _ _ _ _ _ source body => exact Nat.max_le.mpr ⟨source, body⟩
  | whileLoop _ _ _ _ _ condition body => exact Nat.max_le.mpr ⟨condition, body⟩
  | line _ _ _ first body => exact Nat.max_le.mpr ⟨first, body⟩
  | @noItem _ part => exact Nat.le_trans (Nat.le_of_eq part.allLevels_nil) (Nat.zero_le _)
  | @lastItem _ part _ _ _ _ _ _ value _ _ _ _ item =>
    refine Nat.le_trans (Nat.le_of_eq (part.allLevels_cons value [])) ?_
    exact Nat.max_le.mpr ⟨item, part.allLevels_nil ▸ Nat.zero_le _⟩
  | @moreItems _ part _ _ _ _ _ _ _ value values _ _ _ _ _ _ item others =>
    refine Nat.le_trans (Nat.le_of_eq (part.allLevels_cons value values)) ?_
    exact Nat.max_le.mpr ⟨item, others⟩

end Grammar

open Grammar

/-- A program has no more levels than the limit under which it was read. -/
theorem Program.nesting_le_depth {limit : Limit} {source : String} {program : Program Span}
    (accepted : Program.ofText limit source = .ok program) :
    program.nesting ≤ limit.depth := by
  rw [program.nesting_eq_shape]
  exact (Program.derives_of_ofText accepted).1.levels_le

/-! ## Two limits -/

/-- Of two tokens that are seen in a text one after the other, the first starts where the second does
or before it. -/
theorem Reading.Ordered.offset_le {reading : Reading} {start : Position} {here there : Cursor}
    {token later : Token} (ordered : reading.Ordered start)
    (toHere : (Cursor.ofReading reading).Leads here) (seen : here.peek = .ok token)
    (toThere : here.Leads there) (seenLater : there.peek = .ok later) :
    token.span.offset ≤ later.span.offset := by
  have fromStart : here.tokens <:+ reading.tokens := toHere.tokens
  unfold Cursor.peek at seen seenLater
  cases tokens : here.tokens with
  | nil =>
    have nothing : there.tokens = [] := List.suffix_nil.mp (tokens ▸ toThere.tokens)
    simp only [tokens] at seen
    simp only [nothing, Cursor.atEnd, toThere.ending] at seenLater
    rw [Cursor.atEnd, seenLater] at seen
    exact Int.le_of_eq (congrArg (·.span.offset) (Except.ok.inj seen).symm)
  | cons first rest =>
    simp only [tokens, Except.ok.injEq] at seen
    subst seen
    have sorted := ordered.sorted.sublist (tokens ▸ fromStart).sublist
    cases others : there.tokens with
    | nil =>
      have member : first ∈ reading.tokens := fromStart.subset (by simp [tokens])
      have ending : there.ending = reading.ending := (toHere.trans toThere).ending
      simp only [others, Cursor.atEnd, ending] at seenLater
      split at seenLater
      · rename_i span isFinished
        cases seenLater
        exact (ordered.finished span isFinished).2 first member
      · cases seenLater
    | cons second more =>
      simp only [others, Except.ok.injEq] at seenLater
      subst seenLater
      have member : second ∈ first :: rest :=
        (tokens ▸ toThere.tokens).subset (by simp [others])
      rcases List.mem_cons.mp member with rfl | behind
      · exact Int.le_refl _
      · exact (List.pairwise_cons.mp sorted).1 second behind

/-- A program under one limit is read as it is under another, or runs out of levels. -/
theorem Grammar.within_program {fewer more : Limit} (bound : fewer.depth ≤ more.depth) :
    Parser.Within fewer.fault (Grammar.program fewer) (Grammar.program more) :=
  .before ((Grammar.within_nested fewer more bound).block .program)

theorem Limit.depth_ofInt_le {fewer more : Int} (capacity : Nat) (bound : fewer ≤ more) :
    (Limit.ofInt fewer capacity).depth ≤ (Limit.ofInt more capacity).depth := by
  show min fewer.toNat capacity ≤ min more.toNat capacity
  omega

theorem Fault.code_of_lexical {fault : Fault} (isLexical : fault.stage = .lexical) :
    fault.code ≠ "E202" := by
  cases fault with
  | strayCharacter | openString | leadingZero => simp [Fault.code]
  | unexpected | tooDeep | exhausted | badTarget => contradiction

/-- A text is read alike under two limits, as a program or as a failure, unless it runs out of levels
under the smaller one; and if it does so under both, then not sooner under the greater one. -/
theorem Program.ofText_agrees {fewer more : Limit} (source : String)
    (bound : fewer.depth ≤ more.depth) :
    Program.ofText fewer source = Program.ofText more source ∨
      ∃ early, Program.ofText fewer source = .error early ∧ early.fault.code = "E202" ∧
        ∀ late, Program.ofText more source = .error late → late.fault.code = "E202" →
          early.span.offset ≤ late.span.offset := by
  have begun : (Reading.ofText source).Begun .start source.toList := Reading.readOn_begun _ _ _
  have ordered : (Reading.ofText source).Ordered .start := Reading.readOn_ordered _ _ _
  rcases (Grammar.within_program bound).agrees (.ofReading (.ofText source)) with
    same | ⟨there, token, halts, reaches⟩
  · left
    rw [Program.ofText, Program.ofText, Program.ofReading, Program.ofReading, same]
  · refine .inr ⟨⟨fewer.fault, token.span⟩, ?_, fewer.code_fault, fun late fails isDeep => ?_⟩
    · rw [Program.ofText, Program.ofReading, halts.fails]
    · have run : (Grammar.program more).run (.ofReading (.ofText source)) = .error late := by
        unfold Program.ofText Program.ofReading at fails
        split at fails
        · rename_i failure outcome
          rw [outcome, Except.error.inj fails]
        · cases fails
      rcases reaches.error late run isDeep with isBroken | ⟨later, found, leads, seen, isSpan⟩
      · have ending : (Reading.ofText source).ending = .broken late :=
          halts.leads.ending.symm.trans isBroken
        exact absurd isDeep (Fault.code_of_lexical (begun.broken late ending).1)
      · rw [isSpan]
        exact ordered.offset_le halts.leads halts.seen leads seen

/-- A limit on nesting does nothing but reject texts for want of levels. What is read under a limit,
or rejected for another reason, is read or rejected in the same way under every greater limit. What
is rejected for want of levels under both is rejected under the greater one at the same place or
further on. And a program that is read has no more levels than its limit. All of this holds for
every capacity of the machine that reads. -/
theorem Program.ofText_limit_monotone (source : String) (capacity : Nat) (fewer more : Int)
    (bound : fewer ≤ more) :
    (∀ program, Program.ofText (.ofInt fewer capacity) source = .ok program →
        Program.ofText (.ofInt more capacity) source = .ok program ∧
          (program.nesting : Int) ≤ fewer) ∧
      (∀ failure, Program.ofText (.ofInt fewer capacity) source = .error failure →
        failure.fault.code ≠ "E202" →
          Program.ofText (.ofInt more capacity) source = .error failure) ∧
      ∀ early late, Program.ofText (.ofInt fewer capacity) source = .error early →
        Program.ofText (.ofInt more capacity) source = .error late → early.fault.code = "E202" →
          late.fault.code = "E202" → early.span.offset ≤ late.span.offset := by
  have agrees := Program.ofText_agrees source (Limit.depth_ofInt_le capacity bound)
  refine ⟨fun program accepted => ⟨?_, ?_⟩, fun failure fails shallow => ?_, ?_⟩
  · rcases agrees with same | ⟨early, stops, -⟩
    · rw [← same, accepted]
    · rw [accepted] at stops
      cases stops
  · have atMost := Program.nesting_le_depth accepted
    have depth : (Limit.ofInt fewer capacity).depth ≤ fewer.toNat := Nat.min_le_left _ _
    have filled : 0 < program.nesting := Nat.succ_pos _
    omega
  · rcases agrees with same | ⟨early, stops, isDeep, -⟩
    · rw [← same, fails]
    · rw [fails] at stops
      cases stops
      exact absurd isDeep shallow
  · intro early late fails failsLater isDeep isDeepLater
    rcases agrees with same | ⟨stop, stops, -, later⟩
    · rw [← same, fails] at failsLater
      cases failsLater
      exact Int.le_refl _
    · rw [fails] at stops
      cases stops
      exact later late failsLater isDeepLater

def Program.failure? : Except Failure (Program Span) → Option Failure
  | .error failure => some failure
  | .ok _ => none

theorem Program.eq_error_of_failure? {outcome : Except Failure (Program Span)} {failure : Failure}
    (fails : failure? outcome = some failure) :
    outcome = .error failure := by
  cases outcome with
  | error cause => exact congrArg Except.error (Option.some.inj fails)
  | ok program => cases fails

/-- A number in two pairs of parentheses has four levels, and under smaller limits the text is
rejected sooner. -/
theorem Program.limit_monotone_parentheses :
    ∃ program early late,
      Program.ofText (.ofInt 2 500) "x = ((1))\n" = .error early ∧ early.fault.code = "E202" ∧
        Program.ofText (.ofInt 3 500) "x = ((1))\n" = .error late ∧ late.fault.code = "E202" ∧
        early.span.offset ≤ late.span.offset ∧
        Program.ofText (.ofInt 4 500) "x = ((1))\n" = .ok program ∧ (program.nesting : Int) ≤ 4 ∧
        Program.ofText (.ofInt 500 500) "x = ((1))\n" = .ok program := by
  have passes : (Program.ofText (.ofInt 4 500) "x = ((1))\n").toOption.any (fun _ => true) =
      true := by decide +kernel
  obtain ⟨program, accepted, -⟩ := Program.exists_of_any passes
  have early : Program.ofText (.ofInt 2 500) "x = ((1))\n" =
      .error ⟨.tooDeep "2", ⟨1, 6, 1, 6, 5⟩⟩ := Program.eq_error_of_failure? (by decide +kernel)
  have late : Program.ofText (.ofInt 3 500) "x = ((1))\n" =
      .error ⟨.tooDeep "3", ⟨1, 7, 1, 7, 6⟩⟩ := Program.eq_error_of_failure? (by decide +kernel)
  obtain ⟨more, within⟩ :=
    (Program.ofText_limit_monotone "x = ((1))\n" 500 4 500 (by decide)).1 program accepted
  refine ⟨program, _, _, early, rfl, late, rfl, ?_, accepted, within, more⟩
  exact (Program.ofText_limit_monotone "x = ((1))\n" 500 2 3 (by decide)).2.2 _ _ early late rfl rfl

end Parlance
