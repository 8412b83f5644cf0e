import Parlance.Proofs.Grammar.Delivery
import Parlance.Proofs.Grammar.Margins
import Parlance.Proofs.Syntax.Shape
import Parlance.Grammar

/-!
Contract: what the parsers of rows of names and of bracketed lists give on the words of their rules.

One law for each rule: if the parsers of the parts give the parts' trees on the parts' words, the
rule's parser gives the rule's tree on the rule's words. What is nested is given by a `Nested` about
which nothing else is known. Owns: the laws of rows and lists. Does not own: those of expressions
and statements, and the induction that joins them.

A loop puts its items behind those it has, so the laws of lists speak of the items read so far.
-/

namespace Parlance.Grammar

open Lexeme Parlance.Parser

variable {words rest : List Lexeme}

/-! ## Rows of names -/

theorem delivers_moreJoined {joints : List Kind} {select : Token → Option Token}
    {wanted : Expectation} {names : List String} (joined : Joined joints words names)
    (selects : ∀ token : Token, joints.contains token.kind = true → select token = some token)
    (stops : ∀ token : Token, token.kind = leading .endOfInput rest → select token = none) :
    ∀ before first others, words = first :: others →
      (foldWhile select (fun names _ => return names ++ [(← expect .name wanted).text])
        (before ++ [first.text])).Delivers others rest fun found => found = before ++ names := by
  induction joined with
  | one isName =>
    rintro before first others same
    obtain ⟨rfl, rfl⟩ := List.cons.inj same
    exact delivers_foldWhile_stop stops
  | more isName isJoint tail ih =>
    rename_i name joint words names
    rintro before first others same
    obtain ⟨rfl, rfl⟩ := List.cons.inj same
    obtain ⟨second, more, rfl, isSecond⟩ := tail.begins
    change Delivers _ (joint :: ([second] ++ more)) _ _
    refine delivers_foldWhile_round (· = before ++ [name.text] ++ [second.text])
      (fun token same => ⟨token, ?_, ?_⟩) ?_
    · exact selects token (by rw [← Token.lexeme_kind, same]; exact isJoint)
    · refine .bindExpect isSecond fun found foundSame => .pure ?_
      rw [← foundSame, Token.lexeme_text]
    · rintro _ rfl
      refine (ih (before ++ [name.text]) second more rfl).weaken ?_
      rintro _ rfl
      simp

theorem delivers_moreNames {first : Lexeme} {names : List String}
    (joined : Joined [.symbol .comma] (first :: words) names)
    (stops : leading .endOfInput rest ≠ .symbol .comma) :
    (moreNames [first.text]).Delivers words rest fun found => found = names :=
  delivers_moreJoined joined
    (fun token isJoint => ofKind_eq_some (by simpa using isJoint))
    (fun token seen => ofKind_eq_none (by rw [seen]; exact stops)) [] first words rfl

theorem delivers_names {found : List String} (joined : Joined [.symbol .comma] words found)
    (stops : leading .endOfInput rest ≠ .symbol .comma) :
    names.Delivers words rest fun result => result = found := by
  obtain ⟨first, others, rfl, isName⟩ := joined.begins
  refine .bindExpect isName fun token same => ?_
  rw [show token.text = first.text by rw [← Token.lexeme_text, same]]
  exact delivers_moreNames joined stops

theorem delivers_segments {joints : List Kind} {wanted : Expectation} {first : Lexeme}
    {names : List String} (joined : Joined joints (first :: words) names)
    (stops : joints.contains (leading .endOfInput rest) = false) :
    (segments joints wanted first.text).Delivers words rest fun found => found = names :=
  delivers_moreJoined joined
    (fun token isJoint => if_pos isJoint)
    (fun token seen => if_neg (by rw [seen, stops]; exact Bool.false_ne_true)) [] first words rfl

/-! ## Bracketed lists -/

def Part.parser (inner : Nested) : (part : Part) → Parser (part.Tree Span)
  | .expression => inner.expression false
  | .entry => Grammar.entry inner
  | .param => Grammar.parameter inner

def Part.shape : (part : Part) → part.Tree Span → part.Tree Unit
  | .expression => Expr.shape
  | .entry => Entry.shape
  | .param => Param.shape

section Items

variable {α : Type}
variable {back front : List Lexeme} {post : α → Prop} {closing : Lexeme}

variable {bracket : Bracket} {item : Parser α} {before : List α} {divided : Bool}
variable {words rest : List Lexeme}

theorem delivers_nextItem_none (closes : leading .endOfInput rest = .symbol bracket.close) :
    (nextItem bracket item).Delivers [] rest fun found => found = [] := by
  refine .bindNext ?_
  rw [List.nil_append, closes, beq_self_eq_true]
  exact .pure rfl

theorem delivers_nextItem
    (opens : leading (leading (leading .endOfInput rest) back) words ≠ .symbol bracket.close)
    (delivers : item.Delivers words (back ++ rest) post) (breaks : Breaks back)
    (stops : leading .endOfInput rest ≠ .newline) :
    (nextItem bracket item).Delivers (words ++ back) rest
      fun found => ∃ value, found = [value] ∧ post value := by
  refine .bindNext ?_
  rw [List.append_assoc, leading_append, leading_append, beq_eq_false_iff_ne.mpr opens]
  refine delivers.bind fun value holds => ?_
  exact (delivers_skipLineBreaks breaks stops).bindLast fun _ _ => .pure ⟨value, rfl, holds⟩

theorem delivers_itemsBehind_close (closes : closing.kind = .symbol bracket.close) :
    (itemsBehind bracket item before divided).Delivers [closing] rest
      fun list => list.items = before ∧ list.divided = divided := by
  have stops : leading .endOfInput ([closing] ++ rest) ≠ .symbol .comma := by
    rw [List.singleton_append, leading_cons, closes]
    cases bracket <;> simp [Bracket.close]
  refine (delivers_whileKind_stop stops).bindLook ?_
  rintro _ rfl
  exact .bindExpect closes fun _ _ => .pure ⟨rfl, rfl⟩

theorem delivers_itemsBehind_comma {comma : Lexeme} {post : Listed α → Prop}
    (isComma : comma.kind = .symbol .comma)
    (delivers : (itemsFrom bracket item before true).Delivers words rest post) :
    (itemsBehind bracket item before divided).Delivers (comma :: words) rest post := by
  refine delivers_whileKind_enter isComma fun token _ => ?_
  simp only [bind_assoc, pure_bind]
  exact delivers

theorem delivers_noItem (breaks : Breaks front) (closes : closing.kind = .symbol bracket.close) :
    (itemsFrom bracket item before divided).Delivers (front ++ [closing]) rest
      fun list => list.items = before ∧ list.divided = divided := by
  refine (delivers_skipLineBreaks breaks (by simp [closes])).bind fun _ _ => ?_
  refine (delivers_nextItem_none (by simp [closes])).bindLook ?_
  rintro _ rfl
  rw [List.append_nil]
  exact delivers_itemsBehind_close closes

theorem delivers_lastItem (breaks : Breaks front)
    (opens : leading (leading closing.kind back) words ≠ .symbol bracket.close)
    (filled : leading (leading closing.kind back) words ≠ .newline)
    (delivers : item.Delivers words (back ++ closing :: rest) post) (after : Breaks back)
    (closes : closing.kind = .symbol bracket.close) :
    (itemsFrom bracket item before divided).Delivers (front ++ (words ++ (back ++ [closing]))) rest
      fun list => (∃ value, list.items = before ++ [value] ∧ post value) ∧
        list.divided = divided := by
  refine (delivers_skipLineBreaks breaks (by simpa using filled)).bind fun _ _ => ?_
  rw [← List.append_assoc]
  refine (delivers_nextItem (by simpa using opens) delivers after (by simp [closes])).bind ?_
  rintro _ ⟨value, rfl, holds⟩
  refine (delivers_itemsBehind_close closes).weaken ?_
  rintro list ⟨items, isDivided⟩
  exact ⟨⟨value, items, holds⟩, isDivided⟩

theorem delivers_moreItems {others : List Lexeme} {comma : Lexeme} {result : Listed α → Prop}
    (breaks : Breaks front)
    (opens : leading (leading comma.kind back) words ≠ .symbol bracket.close)
    (filled : leading (leading comma.kind back) words ≠ .newline)
    (delivers : item.Delivers words (back ++ comma :: (others ++ rest)) post) (after : Breaks back)
    (isComma : comma.kind = .symbol .comma) (goesOn : ∀ value, post value →
      (itemsFrom bracket item (before ++ [value]) true).Delivers others rest result) :
    (itemsFrom bracket item before divided).Delivers
      (front ++ (words ++ (back ++ comma :: others))) rest result := by
  refine (delivers_skipLineBreaks breaks (by simpa using filled)).bind fun _ _ => ?_
  rw [← List.append_assoc]
  refine (delivers_nextItem (by simpa using opens) delivers after (by simp [isComma])).bind ?_
  rintro _ ⟨value, rfl, holds⟩
  exact delivers_itemsBehind_comma isComma (goesOn value holds)

end Items

end Parlance.Grammar
