import Parlance.Proofs.Layout.Typesetting

/-!
Contract: how the expressions of the grammar are set.

One law for each rule: if the parts are set, so is the whole. Owns: the laws of primaries, of chains
of members, calls and indexes, of operators and of conditionals. Does not own: the laws of
statements, and the induction that joins them.
-/

namespace Parlance.Grammar

open Lexeme Layout

variable {words head list elseWords : List Lexeme}
variable {frames : List Frame} {seam : Seam} {items : List Item} {back : Layout}
variable {after : Compositor}

/-! ## Primaries -/

section Primaries

variable {word opening arrow start closing : Lexeme}

theorem item_leads (legible : word.Legible)
    (loose : word.kind.clings = false ∧ word.kind.outdents = false ∧ word.kind ≠ .newline) :
    word.item.leads = true ∧ word.item.isWord = true := by
  obtain ⟨loose, noOutdent, notBreak⟩ := loose
  have filled : (word.item.chars 0).isEmpty = false ∧ word.item.isWord = true := by
    rcases legible with isBreak | ⟨spelling, spelled⟩
    · contradiction
    · cases spelled with
      | @word first more =>
        have isItem : Lexeme.item ⟨_, String.ofList (first :: more), ""⟩ = _ := item_ofWord _
        rw [isItem]
        exact ⟨by simp [Item.chars], rfl⟩
      | number isSign numeral =>
        exact ⟨by simp [item, Item.chars, numeral.plain.1], rfl⟩
      | string => exact ⟨by simp [item, Item.chars], rfl⟩
      | symbol mark => cases mark <;> exact ⟨rfl, rfl⟩
  simp [Item.leads, legible.item_kind, loose, noOutdent, filled]

theorem typeset_literal {value : Expr Unit} (legible : word.Legible)
    (isLiteral : word.kind = .number ∨ word.kind = .string ∨ word.kind = .boolean ∨
      word.kind = .nil) (layout : ∀ level, value.layout level = [word.item])
    (seam : ∀ chain, value.seam chain = .operand) :
    Expr.OperandTypeset [word] value := by
  have loose : word.kind.clings = false ∧ word.kind.outdents = false ∧ word.kind ≠ .newline := by
    rcases isLiteral with same | same | same | same <;> simp [same, Kind.clings, Kind.outdents]
  obtain ⟨leads, isWord⟩ := item_leads legible loose
  refine ⟨⟨fun level => ?_, fun frames seam' _ => ?_⟩, fun chain => ?_⟩
  · rw [layout]
    exact leads
  · rw [layout, seam]
    refine .item isWord ?_ .nil
    rw [legible.item_kind]
    rcases isLiteral with same | same | same | same <;> rw [same] <;> rfl
  · rw [seam]
    rfl

theorem typeset_name (legible : word.Legible) (isName : word.kind = .name) :
    Expr.OperandTypeset [word] (.variable word.text ()) := by
  have spelled := legible.isName isName
  refine ⟨⟨fun level => leads_name spelled _, fun frames seam ready => ?_⟩, fun _ => rfl⟩
  simp only [List.map_cons, List.map_nil, item_name isName]
  exact .word (.name spelled) (next_name ready) .nil

theorem typeset_path {segments : List String}
    (joined : Joined [.symbol .doubleColon] words segments) (several : 2 ≤ segments.length)
    (legible : ∀ word ∈ words, word.Legible) :
    Expr.OperandTypeset words (.path segments ()) := by
  obtain ⟨filled, areNames⟩ := joined.areNames legible
  refine ⟨⟨fun level => leads_path filled areNames, fun frames seam ready => ?_⟩, fun _ => rfl⟩
  cases joined with
  | one => simp at several
  | @more name joint words names isName isJoint rest =>
    obtain ⟨legibleName, legibleJoint, others⟩ := by simpa using legible
    have isColons : joint.kind = .symbol .doubleColon := by simpa using isJoint
    rw [Expr.layout, path_cons _ (rest.areNames others).1]
    simp only [List.map_cons, item_name isName, legibleJoint.item_symbol isColons]
    refine .word (.name (legibleName.isName isName)) (next_name ready) ?_
    exact .tight (.symbol .doubleColon) rfl rfl (sets_path rest others)

/-- A parenthesis where an operand may begin stands around it. -/
theorem next_group (ready : seam.isReady = true) :
    Compositor.next ⟨frames, seam⟩ (.symbol .lparen) = some ⟨.group 0 :: frames, .start⟩ := by
  cases seam <;> first | contradiction | rfl

theorem typeset_grouping {value : Expr Unit} (legible : opening.Legible)
    (opens : opening.kind = .symbol .lparen)
    (items : Part.expression.ItemsTypeset .round list ([value], false)) :
    Expr.OperandTypeset (opening :: list) (.grouping value ()) := by
  refine ⟨⟨fun level => ?_, fun frames seam ready => ?_⟩, fun _ => rfl⟩
  · exact (by decide : Item.leads (.word "(") = true)
  · rw [List.map_cons, legible.item_symbol opens]
    exact .word (.symbol .lparen) (next_group ready) (items.sets (.group 0) rfl frames (by simp))

theorem typeset_tuple {values : List (Expr Unit)} {divided : Bool} (legible : opening.Legible)
    (opens : opening.kind = .symbol .lparen)
    (items : Part.expression.ItemsTypeset .round list (values, divided))
    (isTuple : values = [] ∨ divided = true) :
    Expr.OperandTypeset (opening :: list) (.tuple values ()) := by
  have inner : ∀ frames, ∃ layout, Expr.layout (depth frames) (.tuple values ()) =
      .word "(" :: layout ∧
        Sets ⟨.group 0 :: frames, .start⟩ (list.map item) layout ⟨frames, .grouped⟩ := by
    intro frames
    rcases values with _ | ⟨first, _ | ⟨second, others⟩⟩
    · exact ⟨_, rfl, items.sets (.group 0) rfl frames fun _ _ => Nat.zero_ne_one⟩
    · obtain rfl : divided = true := by simpa using isTuple
      refine ⟨_, ?_, items.setsOnly frames⟩
      simp [Expr.layout, Expr.layouts, Layout.tuple, Layout.parenthesized]
    · have several : others.length + 1 + 1 ≠ 1 := by omega
      exact ⟨_, rfl, items.sets (.group 0) rfl frames fun _ _ => several⟩
  refine ⟨⟨fun level => ?_, fun frames seam ready => ?_⟩, fun _ => rfl⟩
  · rcases values with _ | ⟨first, _ | ⟨second, others⟩⟩ <;>
      exact (by decide : Item.leads (.word "(") = true)
  · obtain ⟨layout, same, inside⟩ := inner frames
    rw [List.map_cons, legible.item_symbol opens, same]
    exact .word (.symbol .lparen) (next_group ready) inside

/-- Line breaks in brackets are refused, so nothing else has to be known of them. -/
theorem sets_behind_breaks {frame : Frame} {part : Part} {front : List Lexeme} {layout : Layout}
    (breaks : Breaks front) (holds : frame.holds part = true)
    (sets : Sets ⟨frame :: frames, seam⟩ items layout after) :
    Sets ⟨frame :: frames, seam⟩ (front.map item ++ items) layout after := by
  refine ⟨sets.lays, fun taken => ?_⟩
  obtain rfl := eq_nil_of_breaks breaks holds taken
  exact sets.tidy taken

theorem typeset_emptyDictionary {colon : Lexeme} {front back : List Lexeme}
    (legible : opening.Legible ∧ colon.Legible ∧ closing.Legible)
    (opens : opening.kind = .symbol .lbracket) (before : Breaks front)
    (isColon : colon.kind = .symbol .colon) (after : Breaks back)
    (closes : closing.kind = .symbol .rbracket) :
    Expr.OperandTypeset (opening :: (front ++ colon :: (back ++ [closing])))
      (.dictionary [] ()) := by
  obtain ⟨legibleOpening, legibleColon, legibleClosing⟩ := legible
  have holds : Frame.plain.holds .expression = true := rfl
  refine ⟨⟨fun level => ?_, fun frames seam ready => ?_⟩, fun _ => rfl⟩
  · exact (by decide : Item.leads (.word "[") = true)
  · simp only [List.map_cons, List.map_append, List.map_nil,
      legibleOpening.item_symbol opens, legibleColon.item_symbol isColon,
      legibleClosing.item_symbol closes]
    refine .word (.symbol .lbracket) rfl (sets_behind_breaks before holds ?_)
    refine .tight (.symbol .colon) rfl rfl (sets_behind_breaks after holds ?_)
    exact .tight (.symbol .rbracket) rfl rfl .nil

theorem typeset_dictionary {entries : List (Entry Unit)} {divided : Bool}
    (legible : opening.Legible) (opens : opening.kind = .symbol .lbracket)
    (items : Part.entry.ItemsTypeset .square list (entries, divided)) (filled : entries ≠ []) :
    Expr.OperandTypeset (opening :: list) (.dictionary entries ()) := by
  cases entries with
  | nil => contradiction
  | cons first others =>
    refine ⟨⟨fun level => ?_, fun frames seam ready => ?_⟩, fun _ => rfl⟩
    · exact (by decide : Item.leads (.word "[") = true)
    · rw [List.map_cons, legible.item_symbol opens]
      exact .word (.symbol .lbracket) rfl (items.sets .plain rfl frames (by simp))

theorem typeset_array {values : List (Expr Unit)} {divided : Bool} (legible : opening.Legible)
    (opens : opening.kind = .symbol .lbracket)
    (items : Part.expression.ItemsTypeset .square list (values, divided)) :
    Expr.OperandTypeset (opening :: list) (.array values ()) := by
  refine ⟨⟨fun level => ?_, fun frames seam ready => ?_⟩, fun _ => rfl⟩
  · exact (by decide : Item.leads (.word "[") = true)
  · rw [List.map_cons, legible.item_symbol opens]
    exact .word (.symbol .lbracket) rfl (items.sets .plain rfl frames (by simp))

theorem enters_closureHead {params : List String}
    (legible : opening.Legible ∧ (∀ word ∈ head, word.Legible) ∧ arrow.Legible)
    (opens : opening.kind = .keyword .kwFn) (joined : Joined [.symbol .comma] head params)
    (isArrow : arrow.kind = .symbol .arrow)
    (rest : Sets ⟨.block false :: frames, .apart⟩ items (.space :: back) after) :
    Enters ⟨frames, seam⟩ (opening.item :: (head.map item ++ arrow.item :: items))
      (closureHead params ++ back) after := by
  obtain ⟨legibleOpening, legibleHead, legibleArrow⟩ := legible
  obtain ⟨filled, areNames⟩ := joined.areNames legibleHead
  have layout : closureHead params ++ back =
      .word "fn" :: (.space :: Layout.names params) ++
        (.space :: .word "->" :: .space :: back) := by
    simp [closureHead]
  have names : Enters ⟨.block false :: frames, .apart⟩ _ (Layout.names params) _ :=
    enters_names filled areNames rfl
  rw [legibleOpening.item_keyword opens, legibleArrow.item_symbol isArrow, layout,
    items_names joined legibleHead]
  refine .word (.keyword .kwFn) rfl ((names.spaced (leads_names filled areNames) rfl).append ?_)
  exact .spaced (.symbol .arrow) rfl rfl rest

theorem typeset_closureLine {params : List String} {body : Stmt Unit}
    (legible : opening.Legible ∧ (∀ word ∈ head, word.Legible) ∧ arrow.Legible)
    (legibleClosing : closing.Legible) (opens : opening.kind = .keyword .kwFn)
    (joined : Joined [.symbol .comma] head params) (isArrow : arrow.kind = .symbol .arrow)
    (inner : Stmt.ShortTypeset words body) (closes : closing.kind = .keyword .kwEnd) :
    Expr.OperandTypeset (opening :: (head ++ arrow :: (words ++ [closing])))
      (.closureLine params body ()) := by
  refine ⟨⟨fun level => ?_, fun frames seam ready => ?_⟩, fun _ => rfl⟩
  · exact (by decide : Item.leads (.word "fn") = true)
  · simp only [List.map_cons, List.map_append, List.map_nil]
    refine enters_closureHead legible opens joined isArrow ?_
    rw [legibleClosing.item_keyword closes]
    exact (inner.spaced (.block false :: frames)).append (.spaced (.keyword .kwEnd)
      (gap_of_isSettled body.isSettled_seam rfl rfl) rfl .nil)

theorem typeset_closureBlock {params : List String} {body : List (Stmt Unit)}
    (legible : opening.Legible ∧ (∀ word ∈ head, word.Legible) ∧ arrow.Legible)
    (legibleStart : start.Legible) (opens : opening.kind = .keyword .kwFn)
    (joined : Joined [.symbol .comma] head params) (isArrow : arrow.kind = .symbol .arrow)
    (isDo : start.kind = .keyword .kwDo) (inner : Stmt.BodyTypeset words body) :
    Expr.OperandTypeset (opening :: (head ++ arrow :: start :: words))
      (.closureBlock params body ()) := by
  refine ⟨⟨fun level => ?_, fun frames seam ready => ?_⟩, fun _ => rfl⟩
  · exact (by decide : Item.leads (.word "fn") = true)
  · simp only [List.map_cons, List.map_append, legibleStart.item_keyword isDo]
    have layout : Expr.layout (depth frames) (.closureBlock params body ()) =
        closureHead params ++ (.word "do" :: (lines (depth frames + 1)
          (Stmt.layouts (depth frames + 1) body) ++ [.line (depth frames), .word "end"])) := by
      simp [Expr.layout, closureBlock, Layout.block]
    rw [layout]
    refine enters_closureHead legible opens joined isArrow ?_
    exact .spaced (.keyword .kwDo) rfl rfl (inner.sets (by simp))

end Primaries

/-! ## Operators -/

section Operators

variable {word opening closing : Lexeme}

theorem typeset_call {callee : Expr Unit} {args : List (Expr Unit)} {divided : Bool}
    (target : Expr.OperandTypeset words callee) (legible : opening.Legible)
    (opens : opening.kind = .symbol .lparen)
    (inner : Part.expression.ItemsTypeset .round list (args, divided)) :
    Expr.OperandTypeset (words ++ opening :: list) (.call callee args ()) := by
  refine ⟨⟨fun level => leads_append (target.leads level) _, fun frames seam ready => ?_⟩,
    fun _ => rfl⟩
  obtain ⟨takes, opened⟩ := Seam.opened_of_isOperand (target.ends seam.chain)
  have step : Compositor.next ⟨frames, callee.seam seam.chain⟩ (.symbol .lparen) =
      some ⟨.plain :: frames, .start⟩ := by
    rw [← opened]
    rfl
  rw [List.map_append, List.map_cons, legible.item_symbol opens]
  refine .append (target.leads _) (target.enters frames seam ready) ?_
  exact .tight (.symbol .lparen) (gap_of_takesBracket takes rfl) step
    (inner.sets .plain rfl frames (by simp))

theorem typeset_access {dot member : Lexeme} {owner : Expr Unit}
    (target : Expr.OperandTypeset words owner) (legible : dot.Legible ∧ member.Legible)
    (isDot : dot.kind = .symbol .dot) (isName : member.kind = .name) :
    Expr.OperandTypeset (words ++ [dot, member]) (.access owner member.text ()) := by
  refine ⟨⟨fun level => leads_append (target.leads level) _, fun frames seam ready => ?_⟩,
    fun _ => rfl⟩
  have ends := target.ends seam.chain
  have step : Compositor.next ⟨frames, owner.seam seam.chain⟩ (.symbol .dot) =
      some ⟨frames, .start⟩ := by
    refine if_neg fun same => ?_
    have same : owner.seam seam.chain = .path := same
    rw [same] at ends
    contradiction
  simp only [List.map_append, List.map_cons, List.map_nil, legible.1.item_symbol isDot,
    item_name isName]
  refine .append (target.leads _) (target.enters frames seam ready) ?_
  refine .tight (.symbol .dot) rfl step ?_
  exact .tight (.name (legible.2.isName isName)) rfl rfl .nil

theorem typeset_index {place : List Lexeme} {owner index : Expr Unit}
    (target : Expr.OperandTypeset words owner) (legible : opening.Legible ∧ closing.Legible)
    (opens : opening.kind = .symbol .lbracket) (inner : Expr.Typeset place index)
    (closes : closing.kind = .symbol .rbracket) :
    Expr.OperandTypeset (words ++ opening :: (place ++ [closing])) (.index owner index ()) := by
  refine ⟨⟨fun level => leads_append (target.leads level) _, fun frames seam ready => ?_⟩,
    fun _ => rfl⟩
  obtain ⟨takes, -⟩ := Seam.opened_of_isOperand (target.ends seam.chain)
  simp only [List.map_append, List.map_cons, List.map_nil, legible.1.item_symbol opens,
    legible.2.item_symbol closes]
  refine .append (target.leads _) (target.enters frames seam ready) ?_
  refine .tight (.symbol .lbracket) (gap_of_takesBracket takes rfl) rfl ?_
  have holds : Frame.plain.holds .expression = true := rfl
  have close : Sets ⟨.plain :: frames, index.seam 0⟩ [.word Bracket.square.close.spelling] _ _ :=
    sets_close holds (.inr (index.isSettled_seam 0))
  exact (inner.enters (.plain :: frames) .start rfl).sets.append close

theorem typeset_unary {op : UnaryOp} {value : Expr Unit} (legible : word.Legible)
    (isOp : word.kind = op.kind) (inner : Expr.OperandTypeset words value) :
    Expr.OperandTypeset (word :: words) (.unary op value ()) := by
  cases op with
  | not =>
    refine ⟨⟨fun level => ?_, fun frames seam ready => ?_⟩, fun _ => inner.ends 0⟩
    · exact (by decide : Item.leads (.word "not") = true)
    · rw [List.map_cons, legible.item_keyword isOp]
      exact .word (.keyword .kwNot) rfl (inner.spaced frames)
  | minus =>
    have layout : ∀ level, Expr.layout level (.unary .minus value ()) = .word "-" ::
        if (value.layout level).startsWithDigit then .space :: value.layout level
        else value.layout level := by
      intro level
      rw [Expr.layout, Layout.unary]
      split <;> rfl
    refine ⟨⟨fun level => ?_, fun frames seam ready => ?_⟩, fun _ => inner.ends 0⟩
    · rw [layout]
      exact (by decide : Item.leads (.word "-") = true)
    · have step : Compositor.next ⟨frames, seam⟩ (.symbol .minus) = some ⟨frames, .sign⟩ := by
        cases seam <;> first | contradiction | rfl
      rw [List.map_cons, legible.item_symbol isOp, layout]
      exact .word (.symbol .minus) step ((inner.enters frames .sign rfl).signed (inner.leads _))

theorem item_binary {op : BinaryOp} (legible : word.Legible)
    (isOp : BinaryOp.ofKind? word.kind = some op) :
    word.item = .word op.spelling := by
  have same := kind_binaryWord isOp
  cases op <;> first | exact legible.item_symbol same | exact legible.item_keyword same

/-- An operator between operands has a space on either side, also a minus sign. -/
theorem sets_binary {op : BinaryOp} (ends : seam.isOperand = true)
    (rest : Sets ⟨frames, .apart⟩ items back after) :
    Sets ⟨frames, seam⟩ (.word op.spelling :: items) (.space :: .word op.spelling :: back)
      after := by
  have spelt : Spelt op.spelling (binaryWord op).kind := by
    cases op <;> exact ⟨by decide, by decide⟩
  have loose : (binaryWord op).kind.clings = false ∧ (binaryWord op).kind.opensBracket = false := by
    cases op <;> exact ⟨rfl, rfl⟩
  have settled := Seam.isSettled_of_isOperand ends
  refine .spaced spelt (gap_of_isSettled settled loose.1 loose.2) ?_ rest
  cases op <;> first | rfl | exact congrArg some (by simp [ends])

theorem typeset_binary {op : BinaryOp} {front back : List Lexeme} {left right : Expr Unit}
    (first : Expr.OperandTypeset front left) (legible : word.Legible)
    (isOp : BinaryOp.ofKind? word.kind = some op) (second : Expr.OperandTypeset back right) :
    Expr.OperandTypeset (front ++ word :: back) (.binary left op right ()) := by
  refine ⟨⟨fun level => leads_append (first.leads level) _, fun frames seam ready => ?_⟩,
    fun _ => second.ends 0⟩
  rw [List.map_append, List.map_cons, item_binary legible isOp]
  refine .append (first.leads _) (first.enters frames seam ready) ?_
  exact sets_binary (first.ends _) (second.spaced frames)

end Operators

/-! ## Conditionals -/

section Conditionals

variable {opening middle other lineEnd : Lexeme}
variable {condition : Expr Unit} {thenDo elseDo : Stmt Unit} {thenBody elseBody : List (Stmt Unit)}

theorem enters_ifThen (legible : opening.Legible ∧ middle.Legible)
    (opens : opening.kind = .keyword .kwIf) (test : Expr.Typeset head condition)
    (isThen : middle.kind = .keyword .kwThen)
    (rest : Sets ⟨frames, .apart⟩ items (.space :: back) after) :
    Enters ⟨frames, seam⟩ (opening.item :: (head.map item ++ middle.item :: items))
      (.word "if" :: .space :: (condition.layout (depth frames) ++
        (.space :: .word "then" :: .space :: back))) after := by
  rw [legible.1.item_keyword opens, legible.2.item_keyword isThen]
  have tested := test.spaced (.block false :: frames)
  refine .word (.keyword .kwIf) rfl (tested.append ?_)
  exact .spaced (.keyword .kwThen) (gap_of_isSettled (condition.isSettled_seam 0) rfl rfl) rfl rest

theorem typeset_ifLine (legible : opening.Legible ∧ middle.Legible)
    (opens : opening.kind = .keyword .kwIf) (test : Expr.Typeset head condition)
    (isThen : middle.kind = .keyword .kwThen) (inner : Stmt.ShortTypeset words thenDo) :
    Expr.Typeset (opening :: (head ++ middle :: words)) (.ifLine condition thenDo ()) := by
  refine ⟨fun level => ?_, fun frames seam ready => ?_⟩
  · exact (by decide : Item.leads (.word "if") = true)
  · simp only [List.map_cons, List.map_append]
    exact enters_ifThen legible opens test isThen (inner.spaced frames)

theorem typeset_ifLineElse (legible : opening.Legible ∧ middle.Legible)
    (legibleOther : other.Legible) (opens : opening.kind = .keyword .kwIf)
    (test : Expr.Typeset head condition) (isThen : middle.kind = .keyword .kwThen)
    (inner : Stmt.ShortTypeset words thenDo) (isElse : other.kind = .keyword .kwElse)
    (innerElse : Stmt.ShortTypeset elseWords elseDo) :
    Expr.Typeset (opening :: (head ++ middle :: (words ++ other :: elseWords)))
      (.ifLineElse condition thenDo elseDo ()) := by
  refine ⟨fun level => ?_, fun frames seam ready => ?_⟩
  · exact (by decide : Item.leads (.word "if") = true)
  · have layout : Expr.layout (depth frames) (.ifLineElse condition thenDo elseDo ()) =
        .word "if" :: .space :: (condition.layout (depth frames) ++
          (.space :: .word "then" :: .space :: (thenDo.layout (depth frames) ++
            (.space :: .word "else" :: .space :: elseDo.layout (depth frames))))) := by
      simp [Expr.layout, ifLineElse, ifLine]
    simp only [List.map_cons, List.map_append, legibleOther.item_keyword isElse, layout]
    refine enters_ifThen legible opens test isThen ?_
    exact (inner.spaced frames).append (.spaced (.keyword .kwElse)
      (gap_of_isSettled thenDo.isSettled_seam rfl rfl) rfl (innerElse.spaced frames))

theorem typeset_ifBlock (legible : opening.Legible) (opens : opening.kind = .keyword .kwIf)
    (test : Expr.Typeset head condition) (inner : Stmt.BodyTypeset words thenBody) :
    Expr.Typeset (opening :: (head ++ words)) (.ifBlock condition thenBody ()) := by
  refine ⟨fun level => ?_, fun frames seam ready => ?_⟩
  · exact (by decide : Item.leads (.word "if") = true)
  · rw [List.map_cons, List.map_append, legible.item_keyword opens]
    have tested := test.spaced (.block false :: frames)
    exact .word (.keyword .kwIf) rfl (tested.append (inner.sets (condition.seam_ne_line 0)))

theorem typeset_ifBlockElse (legible : opening.Legible ∧ other.Legible)
    (opens : opening.kind = .keyword .kwIf) (test : Expr.Typeset head condition)
    (isBreak : lineEnd.kind = .newline) (inner : Stmt.LinesTypeset words thenBody)
    (isElse : other.kind = .keyword .kwElse) (innerElse : Stmt.BodyTypeset elseWords elseBody) :
    Expr.Typeset (opening :: (head ++ lineEnd :: (words ++ other :: elseWords)))
      (.ifBlockElse condition thenBody elseBody ()) := by
  refine ⟨fun level => ?_, fun frames seam ready => ?_⟩
  · exact (by decide : Item.leads (.word "if") = true)
  · have layout : Expr.layout (depth frames) (.ifBlockElse condition thenBody elseBody ()) =
        .word "if" :: .space :: (condition.layout (depth frames) ++
          (lines (depth frames + 1) (Stmt.layouts (depth frames + 1) thenBody) ++
            .line (depth frames) :: .word "else" ::
              (lines (depth frames + 1) (Stmt.layouts (depth frames + 1) elseBody) ++
                [.line (depth frames), .word "end"]))) := by
      simp [Expr.layout, ifBlockElse, Layout.block]
    have isLine : lineEnd.item = .line 0 := by simp [item, isBreak]
    simp only [List.map_cons, List.map_append, legible.1.item_keyword opens, isLine,
      legible.2.item_keyword isElse, layout]
    have tested := test.spaced (.block false :: frames)
    refine .word (.keyword .kwIf) rfl (tested.append ?_)
    refine inner.block frames false _ _ _ _ (condition.seam_ne_line 0) (.outdent .kwElse rfl rfl ?_)
    exact innerElse.sets (by simp)

end Conditionals

end Parlance.Grammar
