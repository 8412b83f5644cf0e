import Parlance.Grammar

/-!
Contract: where a parser stands when it runs out of levels.

A failure for want of levels is one at a token, and that token stands where the parser started or
further on. Owns: this property of failures (`Cursor.Faces`), the class of the parsers that have it
(`Parser.Onward`), and that the steps of the grammar which nest nothing belong to the class. Does not
own: the rules that nest.
-/

namespace Parlance

/-! ## Failures ahead of a cursor -/

/-- If the failure is for want of levels, it is the fault that stops the tokens, or one at a token
that stands at the cursor or further on. -/
def Cursor.Faces (here : Cursor) (failure : Failure) : Prop :=
  failure.fault.code = "E202" → here.ending = .broken failure ∨
    ∃ there token, here.Leads there ∧ there.peek = .ok token ∧ failure.span = token.span

namespace Cursor.Faces

variable {here there : Cursor} {failure : Failure}

theorem back (faces : there.Faces failure) (leads : here.Leads there) : here.Faces failure := by
  intro isDeep
  rcases faces isDeep with isBroken | ⟨later, token, further, seen, span⟩
  · exact .inl (leads.ending ▸ isBroken)
  · exact .inr ⟨later, token, leads.trans further, seen, span⟩

theorem of_shallow (shallow : failure.fault.code ≠ "E202") :
    here.Faces failure :=
  fun isDeep => absurd isDeep shallow

theorem of_atEnd (ends : here.atEnd = .error failure) : here.Faces failure := by
  intro _
  left
  unfold Cursor.atEnd at ends
  split at ends
  · cases ends
  · rename_i cause isBroken
    cases ends
    exact isBroken

theorem of_peek (seen : here.peek = .error failure) : here.Faces failure := by
  unfold Cursor.peek at seen
  split at seen
  · cases seen
  · exact .of_atEnd seen

theorem of_peekSecond (seen : here.peekSecond = .error failure) : here.Faces failure := by
  unfold Cursor.peekSecond at seen
  split at seen
  · cases seen
  · exact .of_atEnd seen

end Cursor.Faces

theorem Expectation.code_ne (wanted : Expectation) : wanted.code ≠ "E202" := by
  cases wanted <;> simp [Expectation.code]

/-! ## Parsers that go on -/

namespace Parser

variable {α β γ : Type}

/-- If the parser runs out of levels, it does so at a token where it started or further on. -/
class Onward (parser : Parser α) : Prop where
  faces : ∀ here failure, parser.run here = .error failure → here.Faces failure

instance Onward.pure (value : α) : Onward (pure value : Parser α) where
  faces here failure run := by cases run

instance Onward.bind (first : Parser α) (second : α → Parser β) [onwardFirst : Onward first]
    [onwardSecond : ∀ value, Onward (second value)] :
    Onward (first >>= second) where
  faces here failure run := by
    rw [run_bind] at run
    cases outcome : first.run here with
    | error cause =>
      simp only [outcome, Except.error.injEq] at run
      exact run ▸ onwardFirst.faces here cause outcome
    | ok reply =>
      obtain ⟨value, between⟩ := reply
      simp only [outcome] at run
      have leads := first.leads here value between outcome
      exact ((onwardSecond value).faces between failure run).back leads

instance Onward.branch (condition : Prop) [Decidable condition] (left right : Parser α)
    [onwardLeft : Onward left] [onwardRight : Onward right] :
    Onward (if condition then left else right) := by
  split
  · exact onwardLeft
  · exact onwardRight

theorem onward_fail {fault : Fault} (shallow : fault.code ≠ "E202") (span : Span) :
    Onward (fail fault span : Parser α) where
  faces here failure run := by
    cases run
    exact .of_shallow shallow

theorem onward_look {view : Cursor → Except Failure α}
    (faces : ∀ here failure, view here = .error failure → here.Faces failure) :
    Onward (look view) where
  faces here failure run := by
    refine faces here failure ?_
    cases seen : view here with
    | error cause => simpa [look, seen] using run
    | ok value => simp [look, seen] at run

instance: Onward peek :=
  onward_look fun _ _ => .of_peek

instance: Onward peekSecond :=
  onward_look fun _ _ => .of_peekSecond

instance: Onward lastSpan :=
  onward_look fun _ _ seen => by cases seen

instance: Onward take where
  faces here failure run := by
    cases tokens : here.tokens with
    | cons token rest => simp [take, tokens] at run
    | nil =>
      cases ends : here.atEnd with
      | error cause =>
        simp only [take, tokens, ends, Except.error.injEq] at run
        exact run ▸ .of_atEnd ends
      | ok token => simp [take, tokens, ends] at run

instance (wanted : Expectation) : Onward (reject wanted : Parser α) :=
  have (token : Token) : Onward (fail (.unexpected wanted token) token.span : Parser α) :=
    @onward_fail α (.unexpected wanted token) wanted.code_ne token.span
  inferInstanceAs (Onward (peek >>= fun token => fail (.unexpected wanted token) token.span))

instance (kind : Kind) : Onward (next kind) := by
  unfold next
  infer_instance

instance (kind : Kind) : Onward (accept kind) := by
  unfold accept
  infer_instance

instance (kind : Kind) (wanted : Expectation) : Onward (expect kind wanted) := by
  unfold expect
  infer_instance

instance (start : Span) : Onward (spanFrom start) := by
  unfold spanFrom
  infer_instance

instance Onward.foldWhile (select : Token → Option γ) (body : β → γ → Parser β) (value : β)
    [onwardBody : ∀ value choice, Onward (body value choice)] :
    Onward (foldWhile select body value) where
  faces here failure run := by
    induction here using Cursor.taken_induction generalizing value with
    | step here ih =>
      rw [run_foldWhile] at run
      cases tokens : here.tokens with
      | nil =>
        cases ends : here.atEnd with
        | error cause =>
          simp only [tokens, ends, Except.error.injEq] at run
          exact run ▸ .of_atEnd ends
        | ok token => simp [tokens, ends] at run
      | cons token rest =>
        cases selected : select token with
        | none => simp [tokens, selected] at run
        | some choice =>
          have taken := Cursor.leads_behind tokens
          cases outcome : (body value choice).run (here.behind token rest) with
          | error cause =>
            simp only [tokens, selected, outcome, Except.error.injEq] at run
            exact run ▸ ((onwardBody value choice).faces _ cause outcome).back taken
          | ok reply =>
            obtain ⟨middle, between⟩ := reply
            simp only [tokens, selected, outcome] at run
            have leads := (body value choice).leads _ _ _ outcome
            exact (ih token rest between tokens leads.tokens middle run).back (taken.trans leads)

instance: Onward skipLineBreaks := by
  unfold skipLineBreaks
  infer_instance

end Parser

/-! ## Rules that nest nothing -/

namespace Grammar

open Parlance.Parser

instance (names : List String) : Onward (moreNames names) := by
  unfold moreNames
  infer_instance

instance: Onward names := by
  unfold names
  infer_instance

instance (joints : List Kind) (wanted : Expectation) (first : String) :
    Onward (segments joints wanted first) := by
  unfold segments
  infer_instance

instance: Onward path := by
  have (first : Token) (names : List String) : Onward (match names with
      | [name] => (return .variable name first.span : Parser (Expr Span))
      | names => return .path names (← spanFrom first.span)) := by
    split <;> infer_instance
  unfold path
  infer_instance

instance: Onward useStatement := by
  unfold useStatement
  infer_instance

instance: Onward acceptShared := by
  unfold acceptShared
  infer_instance

end Grammar

end Parlance
