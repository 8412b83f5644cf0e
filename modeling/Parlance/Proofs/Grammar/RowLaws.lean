import Parlance.Proofs.Grammar.Fitting
import Parlance.Proofs.Grammar.Running

/-!
Contract: what the runs of the parsers of rows and lists come to.

The grammar builds rows from the right, and the loops build them from the left. So the invariant of a
loop speaks of everything that may still follow: whatever that is, the words so far and it together
form the trees so far and its own.

Owns: what is assumed of what is nested (`Lawful`), and one law for each parser of names, items and
bracketed lists. If it succeeds, the tokens form its tree, and the tree fits them. If it fails, the
words taken begin a phrase of its kind. A phrase that is begun may need one level more than are left,
since what completes it may be nested.
-/

namespace Parlance.Grammar

open Lexeme Parlance.Parser

variable {depth levels : Nat} {inner : Nested} {kind : Kind} {last : Span}

/-! ## Rows of names -/

theorem runs_moreJoined (joints : List Kind) {select : Token → Option Token} {wanted : Expectation}
    {first : Token} (isName : first.kind = .name)
    (selects : ∀ token choice : Token, select token = some choice →
      joints.contains token.kind = true) :
    (foldWhile select (fun names _ => return names ++ [(← expect .name wanted).text])
      [first.text]).Runs kind last
      (fun taken next found => Joined joints (first.lexeme :: taken.map Token.lexeme) found ∧
        (next = .endOfInput ∨ ∃ token : Token, token.kind = next ∧ select token = none))
      (fun words => ∃ more found, Joined joints (first.lexeme :: words ++ more) found ∧
        2 ≤ found.length) := by
  refine runs_foldWhile (fun taken _ found => Joined joints (taken.map Token.lexeme) found)
    (fun words => ∃ more found, Joined joints (words ++ more) found ∧ 2 ≤ found.length) [first] ?_
    (.one isName)
  intro front token names choice middle selected joined
  have isJoint := selects token choice selected
  refine .bindExpect (by decide) (fun _ => joined.viable isJoint) fun name _ same isName => .pure ?_
  rw [List.map_append]
  exact joined.snoc isJoint (same.trans isName)

theorem runs_moreNames {first : Token} (isName : first.kind = .name) :
    (moreNames [first.text]).Runs kind last
      (fun taken next found =>
        Joined [.symbol .comma] (first.lexeme :: taken.map Token.lexeme) found ∧
          next ≠ .symbol .comma)
      (fun words => ∃ more found, Joined [.symbol .comma] (first.lexeme :: words ++ more) found ∧
        2 ≤ found.length) := by
  refine (runs_moreJoined [.symbol .comma] isName fun token choice selected => ?_).weaken ?_
    fun _ isViable => isViable
  · simpa using (eq_of_ofKind selected).1
  · rintro taken next found - ⟨joined, rfl | ⟨token, rfl, unselected⟩⟩
    · exact ⟨joined, by simp⟩
    · exact ⟨joined, ne_of_ofKind unselected⟩

theorem runs_names :
    names.Runs kind last
      (fun taken _ found => Joined [.symbol .comma] (taken.map Token.lexeme) found)
      (fun words => ∃ more found, Joined [.symbol .comma] (words ++ more) found) := by
  refine .bindExpect (by decide) (fun _ => ⟨[.sample .name], ["x"], .one rfl⟩) ?_
  intro first middle same isName
  refine (runs_moreNames (same.trans isName)).weaken (fun _ _ _ _ joined => joined.1) ?_
  rintro words ⟨more, found, joined, -⟩
  exact ⟨more, found, joined⟩

theorem runs_segments {joints : List Kind} {wanted : Expectation} {first : Token}
    (isName : first.kind = .name) :
    (segments joints wanted first.text).Runs kind last
      (fun taken _ found => Joined joints (first.lexeme :: taken.map Token.lexeme) found)
      (fun words => ∃ more found, Joined joints (first.lexeme :: words ++ more) found ∧
        2 ≤ found.length) := by
  refine (runs_moreJoined joints isName fun token choice selected => ?_).weaken
    (fun _ _ _ _ joined => joined.1) fun _ isViable => isViable
  split at selected
  · assumption
  · contradiction

/-! ## Bracketed lists -/

section Items

variable {part : Part} {bracket : Bracket} {item : Parser (part.Tree Span)}

/-- What is assumed of the items of a list. Before a name, they take the name. -/
def LawfulItem (depth levels : Nat) (item : Parser (part.Tree Span)) : Prop :=
  ∀ kind last, item.Runs kind last (ItemOf depth levels part) fun words =>
    Viable (levels + 1) (.item part) words ∧ (kind = .name → words ≠ [])

theorem runs_nextItem (lawful : LawfulItem depth levels item) :
    (nextItem bracket item).Runs kind last
      (fun taken next found =>
        OneItem levels part bracket (taken.map Token.lexeme) next (found.map part.shape) ∧
          Strung depth taken (found.map part.node))
      (fun words => Viable (levels + 1) (.item part) words ∧ (kind = .name → words ≠ [])) := by
  refine .bindNext ?_
  split
  · rename_i closes
    rw [beq_iff_eq.mp closes]
    exact .pure ⟨.none, .none⟩
  · refine (lawful kind last).bind (fun _ isViable => isViable) fun taken middle value _ itemOf => ?_
    refine .bindBreaks fun breaks next leads after => .pure ?_
    rw [List.append_nil, List.map_append]
    exact ⟨.one (leads ▸ itemOf.words) after, (Strung.one itemOf.fitted).extend breaks⟩

/-- What a list keeps from round to round: with a tail behind it, it is whole. -/
def ListKept (levels : Nat) (part : Part) (bracket : Bracket) (taken : List Lexeme) (next : Kind)
    (found : List (part.Tree Span) × Bool) : Prop :=
  ∀ more tail last values divided, levels ≤ more →
    ItemsTail more part bracket tail last values divided →
      (next = .symbol bracket.close → leading last tail = .symbol bracket.close) →
        Derives more (.items part bracket) (taken ++ tail) last
          (found.1.map part.shape ++ values, found.2 || divided)

theorem runs_listRound {taken : List Token} {token : Token} {items : List (part.Tree Span)}
    {divided : Bool} (lawful : LawfulItem depth levels item)
    (isComma : token.lexeme.kind = .symbol .comma)
    (holds : ListKept levels part bracket (taken.map Token.lexeme) token.kind (items, divided) ∧
      Strung depth taken (items.map part.node)) :
    (do skipLineBreaks
        let more ← nextItem bracket item
        return (items ++ more, true) : Parser (List (part.Tree Span) × Bool)).Runs kind last
      (fun more next result =>
        ListKept levels part bracket ((taken ++ token :: more).map Token.lexeme) next result ∧
          Strung depth (taken ++ token :: more) (result.1.map part.node))
      (fun words => Viable (levels + 1) (.items part bracket)
        (taken.map Token.lexeme ++ token.lexeme :: words)) := by
  obtain ⟨kept, strung⟩ := holds
  refine .bindBreaks fun breaks _ _ areBreaks => ?_
  refine (runs_nextItem lawful).bindLast ?_ ?_
  · rintro words ⟨viable, -⟩
    obtain ⟨more, ⟨values, divided⟩, closed⟩ := viable.items bracket areBreaks
    have whole : ∀ next, settles next = true → Derives (levels + 1) (.items part bracket)
        (taken.map Token.lexeme ++ token.lexeme ::
          ((breaks.map Token.lexeme ++ words) ++ more)) next _ :=
      fun next settled => kept _ _ next values true (Nat.le_succ levels)
        (.comma isComma (closed next settled)) fun same => same
    exact .of whole more (by simp)
  · rintro more next found - ⟨one, moreStrung⟩
    refine .pure ⟨rfl, ?_, ?_⟩
    · intro deeper tail last values divided atMost rest closed
      have all := kept _ _ last _ true atMost
        (.comma isComma ((one.mono atMost).derives_before areBreaks rest closed)) fun same => same
      simpa using all
    · rw [List.map_append]
      exact strung.append isComma rfl (.indent areBreaks moreStrung)

theorem runs_listed (lawful : LawfulItem depth levels item) :
    (listed bracket item).Runs kind last (ListOf depth levels part bracket) fun words =>
      Viable (levels + 1) (.items part bracket) words ∧ (kind = .name → words ≠ []) := by
  refine .bindBreaks fun breaks ahead leads before => ?_
  refine (runs_nextItem lawful).bind ?first ?rest
  case first =>
    rintro words ⟨viable, filled⟩
    refine ⟨viable.items bracket before, fun isName nothing => ?_⟩
    obtain ⟨noBreaks, none⟩ := List.append_eq_nil_iff.mp nothing
    rw [noBreaks] at leads
    exact filled (leads.trans isName) none
  rintro taken middle first leadsFirst ⟨one, strung⟩
  have filled : kind = .name → breaks.map Token.lexeme ++ taken.map Token.lexeme ≠ [] :=
    one.filled (by rw [leading_append, leadsFirst, leads])
  refine (runs_loop
    (fun taken next (found : List (part.Tree Span) × Bool) =>
      ListKept levels part bracket (taken.map Token.lexeme) next found ∧
        Strung depth taken (found.1.map part.node))
    (Viable (levels + 1) (.items part bracket)) (breaks ++ taken) ?round ?start).bind ?fails ?finish
  case start =>
    refine ⟨fun more tail last values divided atMost rest closed => ?_, .indent before strung⟩
    rw [List.map_append, List.append_assoc]
    exact (one.mono atMost).derives_before before rest closed
  case round =>
    rintro taken token ⟨items, divided⟩ choice middle selected holds
    exact runs_listRound lawful (eq_of_ofKind selected).1 holds
  case fails =>
    intro words viable
    rw [List.map_append, List.append_assoc] at viable
    refine ⟨viable, fun isName nothing => filled isName ?_⟩
    rw [← List.append_assoc] at nothing
    exact (List.append_eq_nil_iff.mp nothing).1
  case finish =>
    rintro more next ⟨items, divided⟩ - ⟨kept, strung⟩
    rw [List.map_append, List.map_append, List.append_assoc] at kept
    refine .bindExpect (by simp) (fun notClosed => ?_) fun closing last same closes => .pure ?_
    · refine ⟨?_, fun isName nothing => filled isName ?_⟩
      · exact .of (fun last _ => kept _ _ last _ _ (Nat.le_succ levels) (.close (sample_kind _))
          fun isClosed => absurd isClosed notClosed) [sample (.symbol bracket.close)] (by simp)
      · rw [← List.append_assoc] at nothing
        exact (List.append_eq_nil_iff.mp nothing).1
    · have whole :
          breaks ++ (taken ++ (more ++ [closing])) = breaks ++ taken ++ more ++ [closing] := by
        simp
      have all := kept levels [closing.lexeme] last [] false (Nat.le_refl levels)
        (.close (same.trans closes)) fun isClosed => same.trans isClosed
      refine ⟨?_, ⟨_, whole⟩, ?_⟩
      · simpa using all
      · rw [whole]
        exact strung.extend [closing]

end Items

/-! ## What is nested -/

/-- The runs of what is nested come to what the grammar says, with fewer levels left than the whole
program has. Before a name, an expression takes the name. -/
structure Lawful (depth levels : Nat) (inner : Nested) : Prop where
  room : levels + 1 ≤ depth
  expression : ∀ line kind last, (inner.expression line).Runs kind last
    (ExprOf depth (Derives levels (.nested line))) fun words =>
      Viable (levels + 1) (.nested line) words ∧ (kind = .name → words ≠ [])
  block : ∀ block kind last, (inner.block block).Runs kind last
    (LinesOf depth (Derives levels (.nestedLines block)))
    (Viable (levels + 1) (.nestedLines block))

theorem runs_nested (lawful : Lawful depth levels inner) (line : Bool) :
    (inner.expression line).Runs kind last (ExprOf depth (Derives levels (.nested line)))
      (Viable (levels + 1) (.nested line)) :=
  (lawful.expression line kind last).weaken (fun _ _ _ _ exprOf => exprOf) fun _ viable => viable.1

theorem runs_entry (lawful : Lawful depth levels inner) :
    @LawfulItem .entry depth levels (entry inner) := by
  intro kind last
  refine .bindExpect (by decide) (fun notName => ⟨?_, fun isName => absurd isName notName⟩) ?_
  · exact .of (fun next _ => .entryItem (sample_kind _) (sample_kind _)
      (nested_name (sample_kind .name) false)) _ rfl
  intro key _ sameKey toKey
  have isKey := sameKey.trans toKey
  refine .bindExpect (by decide) (fun _ => ⟨?_, by simp⟩) ?_
  · exact .of (fun next _ => .entryItem isKey (sample_kind _)
      (nested_name (sample_kind .name) false)) _ rfl
  intro colon _ sameColon toColon
  have isColon := sameColon.trans toColon
  refine (runs_nested lawful false).bindLast ?_ fun taken next value _ valueOf => .pure ⟨rfl, ?_⟩
  · rintro words ⟨more, value, closed⟩
    refine ⟨?_, by simp⟩
    exact .of (fun next isClosed => .entryItem isKey isColon (closed next isClosed)) more rfl
  · have words : Derives levels (.item .entry) ((key :: colon :: taken).map Token.lexeme) next
        (.mk key.text value.shape ()) := .entryItem isKey isColon valueOf.words
    refine ⟨words, fun before quiet => .mk quiet ?_ ⟨levels, words.closed rfl .newline rfl⟩ ?_⟩
    · change key.span.through value.mark = _
      rw [show value.mark = rowSpan taken from valueOf.fitted.mark,
        through_rowSpan valueOf.fitted.filled _ colon.span]
      rfl
    · exact Strung.skipTo [key] isColon rfl (.one valueOf.fitted) before quiet

theorem runs_parameter (lawful : Lawful depth levels inner) :
    @LawfulItem .param depth levels (parameter inner) := by
  intro kind last
  refine .bindExpect (by decide) (fun notName => ⟨?_, fun isName => absurd isName notName⟩) ?_
  · exact .of (fun next _ => .plainItem (sample_kind _)) _ rfl
  intro name _ sameName toName
  have isName := sameName.trans toName
  refine .bindAccept (by decide) (fun equals _ sameEquals toEquals => ?_) fun _ => ?_
  · have isEquals := sameEquals.trans toEquals
    refine (runs_nested lawful false).bindLast ?_ fun taken next value _ valueOf =>
      .bindSpan (.pure ⟨rfl, ?_⟩)
    · rintro words ⟨more, value, closed⟩
      refine ⟨?_, by simp⟩
      exact .of (fun next isClosed => .defaultedItem isName isEquals (closed next isClosed)) more rfl
    · have words : Derives levels (.item .param) ((name :: equals :: taken).map Token.lexeme) next
          (.defaulted name.text value.shape ()) := .defaultedItem isName isEquals valueOf.words
      refine ⟨words, fun before quiet => .mk quiet rfl ⟨levels, words.closed rfl .newline rfl⟩ ?_⟩
      exact Strung.skipTo [name] isEquals rfl (.one valueOf.fitted) before quiet
  · have words : ∀ next, Derives levels (.item .param) [name.lexeme] next (.plain name.text ()) :=
      fun _ => .plainItem isName
    exact .bindSpan (.pure ⟨words _, fun before quiet => .mk quiet rfl ⟨levels, words _⟩ .done⟩)

theorem Lawful.expressions (lawful : Lawful depth levels inner) (bracket : Bracket) :
    (listed bracket (inner.expression false)).Runs kind last
      (ListOf depth levels .expression bracket) fun words =>
        Viable (levels + 1) (.items .expression bracket) words ∧ (kind = .name → words ≠ []) := by
  refine @runs_listed _ _ _ _ .expression _ _ fun kind last => ?_
  refine (lawful.expression false kind last).weaken ?_ ?_
  · exact fun taken next value _ exprOf => ⟨.expressionItem exprOf.words, exprOf.fitted⟩
  · rintro words ⟨viable, filled⟩
    exact ⟨viable.lift (fun _ closed => closed) fun _ _ _ derives => .expressionItem derives, filled⟩

theorem runs_parameters (lawful : Lawful depth levels inner) :
    (parameters inner).Runs (.symbol .lparen) last
      (fun taken next found => ∃ bracket list divided, taken = bracket :: list ∧
        bracket.lexeme.kind = .symbol .lparen ∧
          Derives levels (.items .param .round) (list.map Token.lexeme) next
            (found.map Param.shape, divided) ∧
          Strung depth list (found.map .param))
      (fun words => ∃ bracket list, words = bracket :: list ∧ bracket.kind = .symbol .lparen ∧
        Viable (levels + 1) (.items .param .round) list) := by
  refine .bindTake (by decide) fun bracket _ isBracket => ?_
  refine (runs_listed (runs_parameter lawful)).bindLast ?_ fun list next found _ listOf =>
    .pure ⟨rfl, bracket, list, found.divided, rfl, isBracket, listOf.words, listOf.strung⟩
  rintro list ⟨viable, -⟩
  exact ⟨bracket.lexeme, list, rfl, isBracket, viable⟩

end Parlance.Grammar
