import Parlance.Proofs.Grammar.RowLaws

/-!
Contract: what the runs of the parsers of short statements come to.

Owns: one law for each of these parsers. An assignment is read as an expression first, and starts
where the token that was looked at before stands, so what is said of its span assumes that its tokens
begin there (`StartsWith`).
-/

namespace Parlance.Grammar

open Lexeme Parlance.Parser

variable {depth levels : Nat} {inner : Nested} {kind next : Kind} {last start : Span} {line : Bool}
variable {front back : List Token} {target : Target Span} {value : Expr Span}

/-- The tokens, if there are any, begin at the start of the span. -/
def StartsWith (start : Span) (tokens : List Token) : Prop :=
  ∀ first rest, tokens = first :: rest → first.span = start

theorem StartsWith.left (starts : StartsWith start (front ++ back)) : StartsWith start front := by
  rintro first rest rfl
  exact starts first (rest ++ back) rfl

/-- A span from the start of a row to the end of a longer one is the span of the longer one. -/
theorem StartsWith.rowSpan_append (starts : StartsWith start front) (filled : front ≠ [])
    (span : Span) (back : List Token) :
    rowSpan (front ++ back) = start.through (endSpan (endSpan span front) back) := by
  rw [Parlance.rowSpan_append filled span]
  obtain ⟨first, rest, rfl⟩ := List.exists_cons_of_ne_nil filled
  rw [rowSpan_cons, Span.through_through_left, starts first rest rfl]

theorem runs_assignment {op : AssignOp} (lawful : Lawful depth levels inner)
    (isOp : AssignOp.ofKind? kind = some op) :
    (assignment inner start target op).Runs kind last
      (fun taken next found => ∃ word back value, taken = word :: back ∧ word.lexeme.kind = kind ∧
        ExprOf depth (Derives levels (.nested false)) back next value ∧
          found = .assign target op value (start.through (endSpan word.span back)))
      (fun words => ∃ word back, words = word :: back ∧ word.kind = kind ∧
        Viable (levels + 1) (.nested false) back) := by
  have notOver : kind ≠ .endOfInput := by
    rintro rfl
    contradiction
  refine .bindTake notOver fun word _ same => ?_
  refine (runs_nested lawful false).bindLast ?_ fun back _ value _ valueOf =>
    .bindSpan (.pure ⟨rfl, word, back, value, rfl, same, valueOf, rfl⟩)
  exact fun back viable => ⟨word.lexeme, back, rfl, same, viable⟩

theorem StmtOf.assign {op : AssignOp} {word : Token} (room : levels + 1 ≤ depth)
    (starts : StartsWith start (front ++ word :: back)) (targetFits : Fitted depth front target.node)
    (isOp : AssignOp.ofKind? word.kind = some op) (valueFits : Fitted depth back (.expr value))
    (derives : Derives levels (.short line)
      (front.map Token.lexeme ++ word.lexeme :: back.map Token.lexeme) next
      (.assign target.shape op value.shape ())) :
    StmtOf depth (Derives levels (.short line)) (front ++ word :: back) next
      (.assign target op value (start.through (endSpan word.span back))) := by
  have mute : word.kind.endsOperand = false := by
    unfold AssignOp.ofKind? at isOp
    split at isOp <;> first | contradiction | (rename_i same; rw [same]; rfl)
  exact .ofShort room (starts.left.rowSpan_append targetFits.filled start (word :: back)).symm
    ((Strung.one targetFits).append rfl mute (.one valueFits)) derives (by simp)

theorem Fitted.asTarget (fitted : Fitted depth front (.expr value))
    (isTarget : value.toTarget? = some target) :
    Fitted depth front target.node := by
  have shapeTarget : value.shape.toTarget? = some target.shape := by
    rw [Expr.toTarget?_shape, isTarget]
    rfl
  cases value with
  | «variable» | access | index =>
    obtain rfl := Option.some.inj isTarget
    exact fitted
  | tuple elements mark =>
    cases elements with
    | nil => contradiction
    | cons first rest =>
      obtain ⟨names, areVariables, rfl⟩ := Option.map_eq_some_iff.mp isTarget
      obtain ⟨levels, -, derives⟩ := fitted.forms
      have spread : Spread depth front (.names names mark) := ⟨fitted.mark, .none⟩
      exact spread.fitted (.inr ⟨levels, _, derives.indexed_of_target shapeTarget, shapeTarget⟩)
  | _ => contradiction

theorem runs_plainAssignment (lawful : Lawful depth levels inner)
    (exprOf : ExprOf depth (Derives levels (.nested line)) front kind value) :
    (plainAssignment inner start value).Runs kind last
      (fun taken next found => StartsWith start (front ++ taken) →
        StmtOf depth (Derives levels (.short line)) (front ++ taken) next found)
      (fun words => Viable (levels + 1) (.short line) (front.map Token.lexeme ++ words)) := by
  refine .bindPeek fun token same => ?_
  rw [same]
  cases isOp : AssignOp.ofKind? kind with
  | none =>
    refine .pure fun _ => ?_
    rw [List.append_nil]
    exact .ofShort lawful.room exprOf.fitted.mark (.one exprOf.fitted) (.ofExpression exprOf.words)
      rfl
  | some op =>
    dsimp only
    cases isTarget : value.toTarget? with
    | none =>
      refine runs_badTarget isOp ?_
      exact .of (fun next isClosed => .ofExpression (exprOf.words.spare.closed rfl next isClosed)) []
        (by simp)
    | some target =>
      have shapeTarget : value.shape.toTarget? = some target.shape := by
        rw [Expr.toTarget?_shape, isTarget]
        rfl
      obtain ⟨words, fitted⟩ := exprOf
      cases words with
      | nested expression =>
        have indexed := expression.indexed_of_target shapeTarget
        refine (runs_assignment lawful isOp).weaken ?_ ?_
        · rintro _ next _ - ⟨word, back, value, rfl, rfl, valueOf, rfl⟩ starts
          exact .assign lawful.room starts (fitted.asTarget isTarget) isOp valueOf.fitted
            (.assign indexed shapeTarget isOp valueOf.words)
        · rintro _ ⟨word, back, rfl, rfl, more, assigned, closed⟩
          exact .of (fun next isClosed => .assign indexed.spare shapeTarget isOp
            (closed next isClosed)) more (by simp)

theorem runs_namesAssignment {first : Token} (lawful : Lawful depth levels inner)
    (isName : first.kind = .name) :
    (namesAssignment inner start first.text).Runs (.symbol .comma) first.span
      (fun taken next found => StartsWith start ([first] ++ taken) →
        StmtOf depth (Derives levels (.short true)) ([first] ++ taken) next found)
      (fun words => Viable (levels + 1) (.short true) (first.lexeme :: words)) := by
  -- Names that are not followed by an operator are followed by `= x`.
  have assigned : ∀ {words more : List Lexeme} {found : List String},
      Joined [.symbol .comma] (first.lexeme :: words ++ more) found → 2 ≤ found.length →
        Viable (levels + 1) (.short true) (first.lexeme :: words) := by
    intro words more found joined several
    have isSet : AssignOp.ofKind? (sample (.symbol .assign)).kind = some .set := rfl
    exact .of (fun next _ => .assignNames joined several isSet
      (nested_name (sample_kind .name) false))
      (more ++ [sample (.symbol .assign), sample .name]) (by simp)
  refine (runs_moreNames isName).bind ?_ fun more middle names leads joined => ?_
  · rintro words ⟨more, found, joined, several⟩
    exact assigned joined several
  obtain ⟨row, stops⟩ := joined
  have several : 2 ≤ names.length := by
    generalize more.map Token.lexeme = words at row leads
    cases row with
    | one isName => exact absurd leads stops
    | more isName isJoint tail => cases tail <;> simp
  refine .bindSpan (.bindPeek fun token same => ?_)
  rw [same]
  cases isOp : AssignOp.ofKind? middle with
  | none =>
    have whole :
        Joined [.symbol .comma] (first.lexeme :: (more.map Token.lexeme ++ []) ++ []) names := by
      simpa using row
    exact runs_reject (assigned whole several)
  | some op =>
    refine (runs_assignment lawful isOp).weaken ?_ ?_
    · rintro _ next _ - ⟨word, back, value, rfl, rfl, valueOf, rfl⟩ starts
      rw [← List.append_assoc] at starts ⊢
      have spread : Spread depth ([first] ++ more)
          (.names names (start.through (endSpan first.span more))) := by
        refine ⟨?_, .none⟩
        rw [← starts.left first more rfl]
        rfl
      exact .assign lawful.room starts (spread.fitted (.inl ⟨row, several⟩)) isOp valueOf.fitted
        (.assignNames row several isOp valueOf.words)
    · rintro _ ⟨word, back, rfl, rfl, rest, value, closed⟩
      exact .of (fun next isClosed => .assignNames row several isOp (closed next isClosed)) rest
        (by simp)

theorem runs_assignmentOrExpression (lawful : Lawful depth levels inner) :
    (assignmentOrExpression inner line).Runs kind last (StmtOf depth (Derives levels (.short line)))
      (Viable (levels + 1) (.short line)) := by
  refine .bindFirst fun token _ => ?_
  have starts : ∀ tokens : List Token, (∀ first rest, tokens = first :: rest → first = token) →
      StartsWith token.span tokens := by
    intro tokens begins first rest same
    rw [begins first rest same]
  refine (runs_nested lawful line).bind ?_ fun front middle value _ exprOf => .bindNext ?_
  · exact fun _ viable => viable.lift (fun _ closed => closed) fun _ _ _ derives =>
      .ofExpression derives
  split
  · rename_i name mark divides
    rw [Bool.and_eq_true, beq_iff_eq] at divides
    obtain ⟨rfl, rfl⟩ := divides
    cases exprOf.words with
    | nested expression =>
      obtain ⟨word, oneWord, isName, rfl⟩ := (expression.indexed_of_target rfl).words_of_variable
      obtain ⟨first, rfl, rfl⟩ := List.map_eq_singleton_iff.mp oneWord
      exact (runs_namesAssignment lawful isName).weaken
        (fun taken next found _ stmtOf begins => stmtOf (starts _ begins)) fun _ viable => viable
  · exact (runs_plainAssignment lawful exprOf).weaken
      (fun taken next found _ stmtOf begins => stmtOf (starts _ begins)) fun _ viable => viable

theorem runs_shortStatement (lawful : Lawful depth levels inner) :
    (shortStatement inner line).Runs kind last (StmtOf depth (Derives levels (.short line)))
      (Viable (levels + 1) (.short line)) := by
  refine .bindPeek fun token same => ?_
  split
  · rename_i isBreak
    rw [same] at isBreak
    exact .bindTake (by simp [isBreak]) fun word _ sameKind => .pure
      (.ofShort lawful.room rfl .none (.breakLoop (sameKind.trans isBreak)) rfl)
  · rename_i isContinue
    rw [same] at isContinue
    exact .bindTake (by simp [isContinue]) fun word _ sameKind => .pure
      (.ofShort lawful.room rfl .none (.continueLoop (sameKind.trans isContinue)) rfl)
  · rename_i isReturn
    rw [same] at isReturn
    refine .bindTake (by simp [isReturn]) fun word middle sameKind => .bindPeek fun token seen => ?_
    have isWord := sameKind.trans isReturn
    rw [seen]
    split
    · rename_i stops
      exact .bindSpan (.pure (.ofShort lawful.room rfl .none (.returnNothing isWord stops) rfl))
    · refine (runs_nested lawful false).bindLast ?_ fun taken next value _ valueOf =>
        .bindSpan (.pure ⟨rfl, ?_⟩)
      · rintro words ⟨more, value, closed⟩
        exact .of (fun next isClosed => .returnValue isWord (closed next isClosed)) more rfl
      · exact .ofShort lawful.room rfl (.skip isWord rfl (.one valueOf.fitted))
          (.returnValue isWord valueOf.words) rfl
  · exact runs_assignmentOrExpression lawful

end Parlance.Grammar
