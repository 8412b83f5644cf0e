import Parlance.Proofs.Grammar.Completeness
import Parlance.Proofs.Grammar.ExpressionLaws

/-!
Contract: what the runs of the whole grammar come to.

Owns: one law for each parser of a statement or a block, the induction over levels that closes the
laws of all parsers (`lawful_nested`), and what the run over a program comes to (`runs_program`).
-/

namespace Parlance

theorem Limit.code_fault (limit : Limit) : limit.fault.code = "E202" := by
  unfold Limit.fault
  split <;> rfl

namespace Grammar

open Lexeme Parlance.Parser

variable {depth levels : Nat} {inner : Nested} {kind : Kind} {last : Span}

/-! ## The name of a method -/

section Shared

variable {here : Cursor} {token second : Token}

theorem run_acceptShared_of_other (seen : here.peek = .ok token)
    (other : (token.kind == .name && token.text == "self") = false) :
    acceptShared.run here = .ok (false, here) := by
  rw [acceptShared, peek, run_look_bind_of seen, other]
  rfl

theorem run_acceptShared_of_own (seen : here.peek = .ok token)
    (seenSecond : here.peekSecond = .ok second)
    (noJoint : (second.kind == .symbol .doubleColon) = false) :
    acceptShared.run here = .ok (false, here) := by
  rw [acceptShared, peek, run_look_bind_of seen]
  split
  · rw [peekSecond, run_look_bind_of seenSecond, noJoint]
    rfl
  · rfl

theorem run_acceptShared_of_shared {rest : List Token} {ending : Ending}
    (isSelf : (token.kind == .name && token.text == "self") = true)
    (isJoint : (second.kind == .symbol .doubleColon) = true) :
    acceptShared.run ⟨token :: second :: rest, ending, last⟩ =
      .ok (true, ⟨rest, ending, second.span⟩) := by
  rw [acceptShared, run_bind, peek, look]
  simp only [Cursor.peek, isSelf, if_pos, run_bind, peekSecond, look, Cursor.peekSecond, isJoint]
  rfl

theorem tokens_of_peekSecond {others : List Token} (tokens : here.tokens = token :: others)
    (seen : here.peekSecond = .ok second) (notOver : second.kind ≠ .endOfInput) :
    ∃ rest, here.tokens = token :: second :: rest := by
  cases others with
  | nil =>
    rw [Cursor.peekSecond_of_cons tokens] at seen
    exact absurd (Cursor.kind_of_peek seen) notOver
  | cons other rest =>
    obtain rfl : other = second := by simpa [Cursor.peekSecond, tokens] using seen
    exact ⟨rest, tokens⟩

theorem runsAt_acceptShared {rest : List Token} {viable : List Lexeme → Prop}
    (tokens : here.tokens = token :: second :: rest)
    (isSelf : (token.kind == .name && token.text == "self") = true)
    (isJoint : (second.kind == .symbol .doubleColon) = true) :
    acceptShared.RunsAt here (fun taken _ shared => taken = [token, second] ∧ shared = true)
      viable := by
  obtain ⟨_, ending, _⟩ := here
  obtain rfl := tokens
  refine ⟨fun shared next run => ?_, fun span failure _ run => ?_⟩
  · rw [run_acceptShared_of_shared isSelf isJoint] at run
    cases run
    exact ⟨[token, second], ⟨rfl, rfl, fun _ _ _ _ _ =>
      run_acceptShared_of_shared isSelf isJoint⟩, rfl, rfl⟩
  · rw [run_acceptShared_of_shared isSelf isJoint] at run
    cases run

theorem runs_methodName {α : Type} {second : Bool → Token → Parser α}
    {post : List Token → Kind → α → Prop} {viable : List Lexeme → Prop} (missing : viable [])
    (missingShared : ∀ owner colons : Lexeme, owner.kind = .name → owner.text = "self" →
      colons.kind = .symbol .doubleColon → viable [owner, colons])
    (goesOn : ∀ shared (front : List Token) (name : Token) middle,
      MethodName shared (front.map Token.lexeme) name.text →
        (second shared name).Runs middle name.span
          (fun taken next result => post (front ++ taken) next result)
          (fun words => viable (front.map Token.lexeme ++ words))) :
    (acceptShared >>= fun shared => expect .name .methodName >>= second shared).Runs kind last post
      viable := by
  have own : (expect .name .methodName >>= second false).Runs kind last
      (fun taken next result => post taken next result ∧ 1 ≤ taken.length)
      (fun words => viable words ∧ (kind = .name → 1 ≤ words.length)) := by
    refine .bindExpect (by decide) (fun notName => ⟨missing, fun isName => absurd isName notName⟩) ?_
    intro name middle same isName
    refine (goesOn false [name] name middle (.own (same.trans isName))).weaken
      (fun _ _ _ _ holds => ⟨holds, by simp⟩) fun _ isViable => ⟨isViable, by simp⟩
  intro here isKind isLast
  cases seen : here.peek with
  | error failure =>
    refine .ofBroken ?_ (broken_of_peek seen)
    rw [run_bind, acceptShared, run_bind, peek, look]
    simp only [seen]
  | ok token =>
  cases isSelf : (token.kind == .name && token.text == "self") with
  | false =>
    refine RunsAt.congr ((own here isKind isLast).weaken (fun _ _ _ _ holds => holds.1)
      fun _ isViable => isViable.1) ?_ fun there alike => ?_
    · rw [run_bind, run_acceptShared_of_other seen isSelf]
    · rw [run_bind, run_acceptShared_of_other (alike.peek.trans seen) isSelf]
  | true =>
  obtain ⟨isName, isText⟩ := Bool.and_eq_true_iff.mp isSelf
  rw [beq_iff_eq] at isName isText
  have isNameKind : kind = .name := isKind.symm.trans ((Cursor.kind_of_peek seen).symm.trans isName)
  obtain ⟨owner, others, tokens⟩ := tokens_of_kind isKind (by rw [isNameKind]; decide)
  obtain rfl : owner = token := by simpa [Cursor.peek, tokens] using seen
  cases seenSecond : here.peekSecond with
  | error failure =>
    refine .ofBroken ?_ (broken_of_peekSecond seenSecond)
    rw [run_bind, acceptShared, peek, run_look_bind_of seen, isSelf, if_pos rfl, run_bind,
      peekSecond, look]
    simp only [seenSecond]
  | ok colons =>
  -- The method is shared exactly if a double colon is the second token.
  cases isJoint : (colons.kind == .symbol .doubleColon) with
  | false =>
    refine RunsAt.congrAhead ((own here isKind isLast).weaken (fun _ _ _ _ holds => holds)
      fun _ isViable => ⟨isViable.1, isViable.2 isNameKind⟩) ?_ fun there alike => ?_
    · rw [run_bind, run_acceptShared_of_own seen seenSecond isJoint]
    · rw [run_bind, run_acceptShared_of_own (alike.fewer.peek.trans seen)
        (alike.peekSecond.trans seenSecond) isJoint]
  | true =>
    have isColons : colons.kind = .symbol .doubleColon := beq_iff_eq.mp isJoint
    obtain ⟨rest, both⟩ := tokens_of_peekSecond tokens seenSecond (by rw [isColons]; decide)
    refine (runsAt_acceptShared both isSelf isJoint).bind (fun _ isViable => isViable) ?_
    rintro _ _ next leaves ⟨rfl, rfl⟩
    refine Runs.bindExpect (by decide) (fun _ => ?_) (fun name middle same toName => ?_) next rfl rfl
    · exact missingShared owner.lexeme colons.lexeme isName isText isColons
    · exact goesOn true [owner, colons, name] name middle
        (.shared isName isText isColons (same.trans toName))

end Shared

/-! ## Heads of blocks -/

theorem Closed.before {phrase : Phrase} {words : List Lexeme} {tree : phrase.Tree Unit}
    {next : Kind} {more : Nat} (closed : Closed levels phrase words tree) (isNext : next = kind)
    (closes : phrase.closedBy kind = true) (room : levels ≤ more) :
    Derives more phrase words next tree :=
  (closed next (isNext ▸ closes)).mono room

/-- The words head a statement of several lines: with a line break, the lines of a block and `end`
behind them, they are the statement. -/
structure Heads (levels : Nat) (block : Block) (front : List Lexeme)
    (tree : List (Stmt Unit) → Stmt Unit) : Prop where
  plain : ∀ kind, block.endsAt kind = (kind == .keyword .kwEnd)
  derives : ∀ {more : Nat} {lineEnd closing : Lexeme} {words : List Lexeme}
    {body : List (Stmt Unit)} {next : Kind}, levels ≤ more → lineEnd.kind = .newline →
      Derives more (.nestedLines block) words closing.kind body →
        closing.kind = .keyword .kwEnd →
          Derives more .statement (front ++ lineEnd :: (words ++ [closing])) next (tree body)

theorem Heads.viable {block : Block} {front words : List Lexeme}
    {tree : List (Stmt Unit) → Stmt Unit} (heads : Heads (levels + 1) block front tree)
    (more : List Lexeme) (same : front = words ++ more) :
    Viable (levels + 1) .statement words := by
  have ends : block.endsAt (.keyword .kwEnd) = true := by simp [heads.plain]
  exact .of (fun next _ => heads.derives (Nat.le_refl _) (sample_kind .newline)
    (nestedLines_nil ends) (sample_kind (.keyword .kwEnd)))
    (more ++ [sample .newline, sample (.keyword .kwEnd)]) (by simp [same])

section Rules

variable (lawful : Lawful depth levels inner)

include lawful

/-! ## Statements with lines of their own -/

theorem runs_closedBlock {block : Block}
    (plain : ∀ kind, block.endsAt kind = (kind == .keyword .kwEnd)) :
    (closedBlock inner block).Runs kind last
      (fun taken _ found => ∃ closing body, taken = body ++ [closing] ∧
        closing.lexeme.kind = .keyword .kwEnd ∧
          LinesOf depth (Derives levels (.nestedLines block)) body closing.lexeme.kind found)
      (Viable (levels + 1) (.nestedLines block)) := by
  refine (lawful.block block kind last).bind (fun _ viable => viable) fun taken _ body _ bodyOf => ?_
  have isEnd := bodyOf.words.endsAt block (.inr rfl)
  rw [plain, beq_iff_eq] at isEnd
  refine .bindTake (by simp [isEnd]) ?_
  rintro closing _ rfl
  exact .pure ⟨closing, taken, rfl, isEnd, bodyOf⟩

/-- What a statement with a block is behind its head: a line break, the lines of the block and
`end`. -/
theorem runs_body {block : Block} {opening : Token} {head : List Token} {front : List Lexeme}
    {nodes : List (Node Span)} {expected : Expectation}
    {build : List (Stmt Span) → Span → Stmt Span} {tree : List (Stmt Unit) → Stmt Unit}
    (heads : Heads levels block front tree) (row : (opening :: head).map Token.lexeme = front)
    (strung : Strung depth (opening :: head) nodes)
    (shape : ∀ body span, (build body span).shape = tree (body.map Stmt.shape))
    (mark : ∀ body span, (build body span).mark = span)
    (children : ∀ body span, (build body span).children = nodes ++ body.map .stmt) :
    (expect .newline expected >>= fun _ => closedBlock inner block >>= fun body =>
      spanFrom opening.span >>= fun span => pure (build body span)).Runs kind last
      (fun taken next found =>
        StmtOf depth (Derives levels .statement) (opening :: head ++ taken) next found)
      (fun words => Viable (levels + 1) .statement (front ++ words)) := by
  have spare : Heads (levels + 1) block front tree :=
    ⟨heads.plain, fun room => heads.derives (Nat.le_of_succ_le room)⟩
  refine .bindExpect (by decide) (fun _ => spare.viable [] (by simp)) ?_
  rintro lineEnd _ rfl isBreak
  refine (runs_closedBlock lawful heads.plain).bindLast ?_ ?_
  · rintro words ⟨more, body, closed⟩
    have inside := closed (.keyword .kwEnd) (by simp [Phrase.closedBy, heads.plain])
    exact .of (fun next _ => spare.derives (Nat.le_refl _) isBreak inside
      (sample_kind (.keyword .kwEnd))) (more ++ [sample (.keyword .kwEnd)]) (by simp)
  rintro _ next body - ⟨closing, taken, rfl, closes, bodyOf⟩
  refine .bindSpan (.pure ⟨rfl, .ofStatement lawful.room ?_ ?_ ?_ rfl⟩)
  · simp [mark]
  · rw [children]
    exact strung.append isBreak rfl (bodyOf.strung.extend [closing])
  · rw [shape]
    simpa [← row] using heads.derives (Nat.le_refl _) isBreak bodyOf.words closes

theorem runs_use :
    useStatement.Runs (.keyword .kwUse) last (StmtOf depth (Derives levels .statement))
      (Viable (levels + 1) .statement) := by
  refine .bindTake (by decide) fun opening _ opens => ?_
  refine .bindExpect (by decide) (fun _ => ?_) fun first _ same isName => ?_
  · exact .of (fun next _ => .use opens (.one (sample_kind _))) [sample .name] rfl
  refine (runs_segments (same.trans isName)).bindLast ?_ fun more _ path _ joined =>
    .bindSpan (.pure ⟨rfl, .ofStatement lawful.room rfl .none (.use opens joined) rfl⟩)
  rintro words ⟨more, found, joined, -⟩
  exact .of (fun next _ => .use opens joined) more rfl

theorem runs_class :
    (classStatement inner).Runs (.keyword .kwClass) last (StmtOf depth (Derives levels .statement))
      (Viable (levels + 1) .statement) := by
  refine .bindTake (by decide) fun opening _ opens => ?_
  have bare : ∀ {levels} {name : Lexeme}, name.kind = .name →
      Heads levels .classBody [opening.lexeme, name] (.classBare name.text · ()) :=
    fun isName => ⟨fun _ => rfl, fun _ => .classBare opens isName⟩
  refine .bindExpect (by decide) (fun _ => ?_) fun name _ sameName toName => .bindNext ?_
  · exact (bare (sample_kind .name)).viable [sample .name] rfl
  have isName := sameName.trans toName
  split
  · rename_i toBracket
    rw [beq_iff_eq.mp toBracket]
    have heads : ∀ {levels} {bracket : Lexeme} {list : List Lexeme} {fields divided},
        bracket.kind = .symbol .lparen →
          Closed levels (.items .param .round) list (fields, divided) →
            Heads levels .classBody (opening.lexeme :: name.lexeme :: bracket :: list)
              (.classFields name.text fields · ()) :=
      fun isBracket closed => ⟨fun _ => rfl, fun room isBreak =>
        .classFields opens isName isBracket (closed.before isBreak rfl room) isBreak⟩
    refine (runs_parameters lawful).bind ?_ ?_
    · rintro _ ⟨bracket, list, rfl, isBracket, more, ⟨fields, divided⟩, closed⟩
      exact (heads isBracket closed).viable more rfl
    rintro _ _ fields - ⟨bracket, list, divided, rfl, isBracket, params, strung⟩
    exact runs_body lawful (heads isBracket (params.closed rfl)) rfl
      (strung.skipTo [opening, name] isBracket rfl)
      (fun _ _ => Stmt.shape_classFields ..) (fun _ _ => rfl) (fun _ _ => rfl)
  · exact runs_body lawful (bare isName) (rfl : [opening, name].map Token.lexeme = _) .none
      (fun _ _ => Stmt.shape_classBare ..) (fun _ _ => rfl) (fun _ _ => rfl)

theorem runs_method :
    (methodStatement inner).Runs (.keyword .kwDef) last (StmtOf depth (Derives levels .statement))
      (Viable (levels + 1) .statement) := by
  refine .bindTake (by decide) fun opening _ opens => ?_
  have heads : ∀ {levels shared name} {bracket : Lexeme} {words list : List Lexeme}
      {fields divided}, MethodName shared words name → bracket.kind = .symbol .lparen →
        Closed levels (.items .param .round) list (fields, divided) →
          Heads levels .methodBody (opening.lexeme :: (words ++ bracket :: list))
            (.methodBlock shared name fields · ()) :=
    fun named isBracket closed => ⟨fun _ => rfl, fun room isBreak body closes => by
      simpa using Derives.methodBlock opens named isBracket (closed.before isBreak rfl room)
        isBreak body closes⟩
  -- The name of a method is followed by an empty parameter list.
  have headed : ∀ {words more : List Lexeme} {shared : Bool} {name : String},
      MethodName shared (words ++ more) name →
        Viable (levels + 1) .statement (opening.lexeme :: words) := by
    intro words more shared name named
    exact (heads named (sample_kind (.symbol .lparen)) fun _ _ => items_nil .param .round).viable
      (more ++ [sample (.symbol .lparen), sample (.symbol .rparen)]) (by simp; rfl)
  refine runs_methodName ?_ ?_ fun shared head name _ named => .bindNext ?_
  · have named : MethodName false ([] ++ [sample .name]) "x" := .own rfl
    exact headed named
  · intro owner colons isOwner isSelf isColons
    have named : MethodName true ([owner, colons] ++ [sample .name]) "x" :=
      .shared isOwner isSelf isColons rfl
    exact headed named
  split
  · rename_i toBracket
    rw [beq_iff_eq.mp toBracket]
    refine (runs_parameters lawful).bind ?_ ?_
    · rintro _ ⟨bracket, list, rfl, isBracket, more, ⟨fields, divided⟩, closed⟩
      exact (heads named isBracket closed).viable more (by simp)
    rintro _ _ fields - ⟨bracket, list, divided, rfl, isBracket, params, strung⟩
    refine .bindAccept (by decide) ?_ fun _ => ?_
    · rintro equals _ rfl isEquals
      refine (runs_nested lawful false).bindLast ?_ fun taken next value _ valueOf => ?_
      · rintro words ⟨more, value, closed⟩
        exact .of (fun next isClosed => .methodValue opens named isBracket params.spare isEquals
          (closed next isClosed)) more (by simp)
      have words : Derives levels .statement _ next
          (.methodValue shared name.text (fields.map Param.shape) value.shape ()) :=
        .methodValue opens named isBracket params isEquals valueOf.words
      exact .bindSpan (.pure ⟨rfl, .ofStatement lawful.room (by simp [Stmt.mark])
        ((strung.append isEquals rfl (.one valueOf.fitted)).skipTo (opening :: head) isBracket rfl)
        (by rw [Stmt.shape_methodValue]; exact words) (by simp)⟩)
    · exact (runs_body lawful (heads named isBracket (params.closed rfl)) (by simp)
        (strung.skipTo (opening :: head) isBracket rfl) (fun _ _ => Stmt.shape_methodBlock ..)
        (fun _ _ => rfl) (fun _ _ => rfl)).weaken (fun _ _ _ _ => by simp) fun _ => by simp
  · have row : MethodName shared ((head.map Token.lexeme ++ []) ++ []) name.text := by
      simpa using named
    exact runs_reject (headed row)

theorem runs_for :
    (forStatement inner).Runs (.keyword .kwFor) last (StmtOf depth (Derives levels .statement))
      (Viable (levels + 1) .statement) := by
  refine .bindTake (by decide) fun opening _ opens => ?_
  have heads : ∀ {levels bindings source} {middle : Lexeme} {words list : List Lexeme},
      Joined [.symbol .comma] words bindings → middle.kind = .keyword .kwIn →
        Closed levels (.nested false) list source →
          Heads levels .forBody (opening.lexeme :: (words ++ middle :: list))
            (.forLoop bindings source · ()) :=
    fun joined isIn closed => ⟨fun _ => rfl, fun room isBreak body closes => by
      simpa using Derives.forLoop opens joined isIn (closed.before isBreak rfl room)
        isBreak body closes⟩
  -- Names are followed by `in x`.
  have headed : ∀ {words more : List Lexeme} {bindings : List String},
      Joined [.symbol .comma] (words ++ more) bindings →
        Viable (levels + 1) .statement (opening.lexeme :: words) := by
    intro words more bindings joined
    exact (heads joined (sample_kind (.keyword .kwIn)) fun _ _ =>
      nested_name (sample_kind .name) false).viable
      (more ++ [sample (.keyword .kwIn), sample .name]) (by simp)
  refine runs_names.bind ?_ fun head _ bindings _ joined => ?_
  · rintro words ⟨more, bindings, joined⟩
    exact headed joined
  refine .bindExpect (by decide) (fun _ => ?_) fun middle _ sameIn toIn => ?_
  · have row : Joined [.symbol .comma] ((head.map Token.lexeme ++ []) ++ []) bindings := by
      simpa using joined
    exact headed row
  have isIn := sameIn.trans toIn
  refine (runs_nested lawful false).bind ?_ fun list _ source _ sourceOf => ?_
  · rintro words ⟨more, source, closed⟩
    exact (heads joined isIn closed).viable more (by simp)
  exact (runs_body lawful (heads joined isIn (sourceOf.words.closed rfl)) (by simp)
    ((Strung.one sourceOf.fitted).skipTo (opening :: head) isIn rfl)
    (fun _ _ => Stmt.shape_forLoop ..) (fun _ _ => rfl) (fun _ _ => rfl)).weaken
    (fun _ _ _ _ => by simp) fun _ => by simp

theorem runs_while :
    (whileStatement inner).Runs (.keyword .kwWhile) last (StmtOf depth (Derives levels .statement))
      (Viable (levels + 1) .statement) := by
  refine .bindTake (by decide) fun opening _ opens => ?_
  have heads : ∀ {levels words condition}, Closed levels (.nested false) words condition →
      Heads levels .whileBody (opening.lexeme :: words) (.whileLoop condition · ()) :=
    fun closed => ⟨fun _ => rfl, fun room isBreak =>
      .whileLoop opens (closed.before isBreak rfl room) isBreak⟩
  refine (runs_nested lawful false).bind ?_ fun head _ condition _ test => ?_
  · rintro words ⟨more, condition, closed⟩
    exact (heads closed).viable more rfl
  exact runs_body lawful (heads (test.words.closed rfl)) rfl (.skip opens rfl (.one test.fitted))
    (fun _ _ => Stmt.shape_whileLoop ..) (fun _ _ => rfl) (fun _ _ => rfl)

theorem runs_statement :
    (statement inner).Runs kind last (StmtOf depth (Derives levels .statement))
      (Viable (levels + 1) .statement) := by
  refine .bindPeek fun token same => ?_
  subst same
  split
  · rename_i opens
    rw [opens]
    exact runs_use lawful
  · rename_i opens
    rw [opens]
    exact runs_class lawful
  · rename_i opens
    rw [opens]
    exact runs_method lawful
  · rename_i opens
    rw [opens]
    exact runs_for lawful
  · rename_i opens
    rw [opens]
    exact runs_while lawful
  · exact (runs_shortStatement lawful).weaken
      (fun _ _ _ _ stmtOf => ⟨.ofShort stmtOf.words, stmtOf.fitted⟩)
      fun _ viable => viable.lift (fun _ closed => closed) fun _ _ _ derives => .ofShort derives

/-! ## Lines -/

theorem runs_blockLine (block : Block) :
    (blockLine inner block).Runs kind last (LinesOf depth (OneLine levels block))
      (Viable (levels + 1) (.lines block)) := by
  refine .bindPeek fun token same => ?_
  dsimp only
  rw [same]
  split
  · rename_i stops
    rw [Bool.or_eq_true, beq_iff_eq] at stops
    exact .pure ⟨.empty stops, .none⟩
  split
  · exact runs_reject (.of (fun next ends => .noLine ends) [] rfl)
  refine (runs_statement lawful).bindLast ?_ fun taken middle found _ stmtOf => .bindNext ?_
  · rintro words ⟨more, stmt, closed⟩
    exact .of (fun next ends => .line (closed _ rfl) (sample_kind .newline) (.noLine ends))
      (more ++ [sample .newline]) (by simp)
  split
  · rename_i isBreak
    rw [beq_iff_eq] at isBreak
    subst isBreak
    exact .pure ⟨rfl, .filled stmtOf.words, .one stmtOf.fitted⟩
  · exact runs_reject (.of (fun next ends => .line (stmtOf.words.spare.closed rfl _ rfl)
      (sample_kind .newline) (.noLine ends)) [sample .newline] (by simp))

/-- What lines keep from round to round: with a tail behind them, they are whole. -/
def LinesKept (levels : Nat) (block : Block) (taken : List Lexeme) (next : Kind)
    (body : List (Stmt Unit)) : Prop :=
  (next = .newline ∨ block.endsAt next = true) ∧
    ∀ deeper tail last more, levels ≤ deeper → LinesTail deeper block tail last more →
      leading last tail = next → Derives deeper (.lines block) (taken ++ tail) last (body ++ more)

theorem runs_block (block : Block) :
    (Grammar.block inner block).Runs kind last (LinesOf depth (Derives levels (.lines block)))
      (Viable (levels + 1) (.lines block)) := by
  refine (runs_blockLine lawful block).bind (fun _ viable => viable)
    fun front _ first _ firstOf => ?_
  refine (runs_foldWhile (LinesOf depth (LinesKept levels block))
    (Viable (levels + 1) (.lines block)) front ?round ?start).weaken ?finish fun _ viable => viable
  case start =>
    refine ⟨⟨firstOf.words.stops, ?_⟩, firstOf.strung⟩
    intro deeper tail last more atMost rest leads
    exact (firstOf.words.mono atMost).derives rest leads
  case round =>
    rintro row lineEnd body choice _ selected ⟨⟨-, kept⟩, strung⟩
    have isBreak : lineEnd.lexeme.kind = .newline := (eq_of_ofKind selected).1
    refine (runs_blockLine lawful block).bindLast ?_ fun taken next found _ lineOf =>
      .pure ⟨rfl, ⟨lineOf.words.stops, ?_⟩, ?_⟩
    · rintro words ⟨more, lines, closed⟩
      exact .of (fun next ends => kept _ _ next _ (Nat.le_succ levels)
        (.more isBreak (closed next ends)) rfl) more (by simp)
    · intro deeper tail last more atMost rest leads
      have all := kept _ _ last _ atMost
        (.more isBreak ((lineOf.words.mono atMost).derives rest leads)) rfl
      simpa using all
    · rw [List.map_append]
      exact strung.append isBreak rfl lineOf.strung
  case finish =>
    rintro taken next body - ⟨⟨⟨stops, kept⟩, strung⟩, ended⟩
    have ends : block.endsAt next = true := by
      rcases stops with rfl | ends
      · rcases ended with ended | ⟨token, isBreak, unselected⟩
        · contradiction
        · exact absurd isBreak (ne_of_ofKind unselected)
      · exact ends
    refine ⟨?_, strung⟩
    simpa using kept levels [] next [] (Nat.le_refl levels) (.done ends) rfl

end Rules

/-! ## Every level -/

/-- With no level left, nothing is read, and the fault of opening one level too many is none that
says where a phrase cannot go on. -/
theorem runs_tooDeep {α : Type} {limit : Limit} {post : List Token → Kind → α → Prop}
    {viable : List Lexeme → Prop} :
    (tooDeep limit : Parser α).Runs kind last post viable := by
  refine .bindPeek fun token _ here _ _ => ⟨fun _ _ run => (by cases run), ?_⟩
  rintro span _ _ ⟨⟩ shallow
  exact absurd limit.code_fault shallow

/-- A parser that takes a name which fills a line does not fail at a name. -/
theorem runs_filled {α : Type} {parser : Parser α} {post : List Token → Kind → α → Prop}
    {viable : List Lexeme → Prop} (runs : parser.Runs kind last post viable)
    (delivers : ∀ word : Lexeme, word.kind = .name →
      ∃ post, parser.Delivers [word] [sample .newline] post) :
    parser.Runs kind last post fun words => viable words ∧ (kind = .name → words ≠ []) := by
  rintro here rfl isLast
  refine ⟨(runs here rfl isLast).leaves, fun span failure isFinished run shallow => ?_⟩
  obtain ⟨front, rest, token, stops, isViable⟩ :=
    (runs here rfl isLast).stops span failure isFinished run shallow
  refine ⟨front, rest, token, stops, isViable, fun isName nothing => ?_⟩
  obtain rfl : front = [] := List.map_eq_nil_iff.mp nothing
  obtain ⟨first, others, tokens⟩ := tokens_of_kind isName (by decide)
  have isRest : rest = first :: others := by
    rw [← tokens, stops.tokens]
    rfl
  obtain rfl : first = token := by
    have seen := stops.seen
    rw [isRest] at seen
    exact seen
  have isWord : first.lexeme.kind = .name := (Cursor.kind_of_tokens tokens).symm.trans isName
  obtain ⟨post, takesName⟩ := delivers first.lexeme isWord
  obtain ⟨value, next, accepted, -⟩ := takesName
    ⟨[first, ⟨.newline, "\n", "", span⟩], .finished span, here.last⟩ span rfl rfl
  have again := stops.elsewhere others isRest [⟨.newline, "\n", "", span⟩] (.finished span)
  rw [List.nil_append, accepted] at again
  cases again

theorem runs_nestedLines {block : Block} {body : Parser (List (Stmt Span))}
    (runs : body.Runs kind last (LinesOf depth (Derives levels (.lines block)))
      (Viable (levels + 1) (.lines block))) :
    body.Runs kind last (LinesOf depth (Derives (levels + 1) (.nestedLines block)))
      (Viable (levels + 2) (.nestedLines block)) :=
  runs.weaken (fun _ _ _ _ linesOf => ⟨.nestedLines linesOf.words, linesOf.strung⟩)
    fun _ viable => viable.lift (fun _ closed => closed) fun _ _ _ derives => .nestedLines derives

/-- With fewer levels left than the whole program has, what is nested keeps the laws. -/
theorem lawful_nested (limit : Limit) (levels : Nat) (room : levels + 1 ≤ depth) :
    Lawful depth levels (Grammar.nested limit levels) := by
  induction levels with
  | zero => exact ⟨room, fun _ _ _ => runs_tooDeep, fun _ _ _ => runs_tooDeep⟩
  | succ levels ih =>
    have lawful := ih (Nat.le_of_succ_le room)
    refine ⟨room, fun line kind last => ?_, fun block kind last => ?_⟩
    · refine runs_filled ((runs_expression lawful room).weaken
        (fun _ _ _ _ exprOf => ⟨.nested exprOf.words, exprOf.fitted⟩)
        fun _ viable => viable.lift (fun _ closed => closed) fun _ _ _ derives => .nested derives) ?_
      intro word isName
      have gives : Complete (Grammar.nested limit (levels + 1)) (.nested line) [word] .newline
        (.variable word.text ()) := (nested_name isName line).complete limit
      exact ⟨_, gives (by cases line <;> rfl) [sample .newline] rfl⟩
    · exact runs_nestedLines (runs_block lawful block)

theorem runs_program (limit : Limit) :
    ((nested limit limit.depth).block .program).Runs kind last
      (LinesOf limit.depth (Derives limit.depth (.nestedLines .program)))
      (Viable (limit.depth + 1) (.nestedLines .program)) := by
  cases depth : limit.depth with
  | zero => exact runs_tooDeep
  | succ levels =>
    exact runs_nestedLines (runs_block (lawful_nested limit levels (Nat.le_refl _)) .program)

end Grammar

end Parlance
