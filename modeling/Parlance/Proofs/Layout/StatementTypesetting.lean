import Parlance.Proofs.Layout.ExpressionTypesetting

/-!
Contract: every phrase that the grammar derives from legible words is set by the compositor.

Owns: the laws of statements and of the items of lists, one for each rule, and the induction over
derivations that joins all laws (`Derives.typeset`).
-/

namespace Parlance.Grammar

open Lexeme Layout

variable {words head list : List Lexeme}

/-! ## Short statements -/

section Short

variable {word : Lexeme} {value : Expr Unit} {op : AssignOp}

theorem typeset_keyword {stmt : Stmt Unit} (keyword : Keyword) (legible : word.Legible)
    (isKeyword : word.kind = .keyword keyword)
    (noOutdent : Kind.outdents (.keyword keyword) = false)
    (step : ∀ frames seam, Compositor.next ⟨frames, seam⟩ (.keyword keyword) =
      some ⟨frames, .apart⟩) (layout : ∀ level, stmt.layout level = [.word keyword.spelling])
    (seam : stmt.seam = .apart) (noDeclaration : stmt.declares = false) :
    Stmt.ShortTypeset [word] stmt := by
  have isItem := legible.item_keyword isKeyword
  have leads := item_leads legible (by simp [isKeyword, noOutdent, Kind.clings])
  refine ⟨⟨fun level => ?_, fun frames seam' fresh _ => ?_⟩, noDeclaration⟩
  · rw [layout, ← isItem]
    exact leads.1
  · rw [layout, seam, List.map_cons, List.map_nil, isItem]
    exact .word (.keyword keyword) (step frames seam') .nil

theorem typeset_returnValue (legible : word.Legible) (isReturn : word.kind = .keyword .kwReturn)
    (inner : Expr.Typeset words value) :
    Stmt.ShortTypeset (word :: words) (.returnValue value ()) := by
  refine ⟨⟨fun level => ?_, fun frames seam fresh _ => ?_⟩, rfl⟩
  · exact (by decide : Item.leads (.word "return") = true)
  · rw [List.map_cons, legible.item_keyword isReturn]
    exact .word (.keyword .kwReturn) rfl (inner.spaced frames)

theorem typeset_expression (inner : Expr.Typeset words value) :
    Stmt.ShortTypeset words (.expression value ()) := by
  refine ⟨⟨inner.leads, fun frames seam fresh _ => ?_⟩, rfl⟩
  have ready := Seam.isReady_of_isFresh fresh
  have enters := inner.enters frames seam ready.1
  rwa [ready.2] at enters

theorem sets_assignment {frames outer : List Frame} {seam : Seam} (legible : word.Legible)
    (isOp : AssignOp.ofKind? word.kind = some op) (settled : seam.isSettled = true)
    (step : Compositor.assigned ⟨frames, seam⟩ = some ⟨outer, .apart⟩)
    (inner : Expr.Typeset words value) :
    Sets ⟨frames, seam⟩ (word.item :: words.map item)
      (.space :: .word op.spelling :: .space :: value.layout (depth outer))
      ⟨outer, value.seam 0⟩ := by
  have spelling : (assignSymbol op).spelling = op.spelling := by cases op <;> rfl
  have spelt : Spelt op.spelling (.symbol (assignSymbol op)) := spelling ▸ .symbol _
  have loose : Kind.clings (.symbol (assignSymbol op)) = false ∧
      Kind.opensBracket (.symbol (assignSymbol op)) = false := by
    cases op <;> exact ⟨rfl, rfl⟩
  have next : Compositor.next ⟨frames, seam⟩ (.symbol (assignSymbol op)) =
      some ⟨outer, .apart⟩ := by
    cases op <;> exact step
  rw [legible.item_symbol (kind_assignSymbol isOp), spelling]
  exact .spaced spelt (gap_of_isSettled settled loose.1 loose.2) next (inner.spaced outer)

theorem enters_assignNames {names : List String} {frames : List Frame} {seam : Seam}
    (filled : names ≠ []) (areNames : ∀ name ∈ names, IsName name) (legible : word.Legible)
    (isOp : AssignOp.ofKind? word.kind = some op) (inner : Expr.Typeset words value)
    (fresh : seam.isFresh = true) :
    Enters ⟨frames, seam⟩ (bare (Layout.names names) ++ word.item :: words.map item)
      (Stmt.layout (depth frames) (.assign (.names names ()) op value () : Stmt Unit))
      ⟨frames, value.seam 0⟩ := by
  have ready := Seam.isReady_of_isFresh fresh
  have first : Enters ⟨frames, seam⟩ _ _ _ := enters_names filled areNames ready.1
  rw [ready.2, Nat.zero_add] at first
  have step : Compositor.assigned ⟨tally (names.length - 1) frames, .name (names.length - 1)⟩ =
      some ⟨frames, .apart⟩ := by
    simp [Compositor.assigned, Seam.chain]
  exact .append (leads_names filled areNames) first (sets_assignment legible isOp rfl step inner)

theorem typeset_assignNames {names : List String} {front : List Lexeme}
    (joined : Joined [.symbol .comma] front names) (legibleNames : ∀ word ∈ front, word.Legible)
    (legible : word.Legible) (isOp : AssignOp.ofKind? word.kind = some op)
    (inner : Expr.Typeset words value) :
    Stmt.ShortTypeset (front ++ word :: words) (.assign (.names names ()) op value ()) := by
  obtain ⟨filled, areNames⟩ := joined.areNames legibleNames
  refine ⟨⟨fun level => leads_append (leads_names filled areNames) _,
    fun frames seam fresh _ => ?_⟩, rfl⟩
  rw [List.map_append, List.map_cons, items_names joined legibleNames]
  exact enters_assignNames filled areNames legible isOp inner fresh

/-- Names that were assigned as a tuple were written in parentheses, which are refused. -/
theorem typeset_assignTuple {names : List String} {values : List (Expr Unit)} {front : List Lexeme}
    (first : Expr.OperandTypeset front (.tuple values ())) (filled : names ≠ [])
    (areNames : ∀ name ∈ names, IsName name) (legible : word.Legible)
    (isOp : AssignOp.ofKind? word.kind = some op) (inner : Expr.Typeset words value) :
    Stmt.ShortTypeset (front ++ word :: words) (.assign (.names names ()) op value ()) := by
  refine ⟨⟨fun level => leads_append (leads_names filled areNames) _,
    fun frames seam fresh _ => ?_⟩, rfl⟩
  refine ⟨(enters_assignNames filled areNames legible isOp inner fresh).lays, fun taken => ?_⟩
  rw [List.map_append, List.map_cons] at taken
  obtain ⟨-, taken⟩ :=
    (first.enters frames seam (Seam.isReady_of_isFresh fresh).1).taken taken
  obtain ⟨_, refused, -⟩ := Compositor.exists_of_run_cons taken
  rw [legible.item_kind, kind_assignSymbol isOp] at refused
  cases op <;> contradiction

theorem typeset_assign {front : List Lexeme} {assigned : Expr Unit} {target : Target Unit}
    (first : Expr.OperandTypeset front assigned)
    (sameLayout : ∀ level, target.layout level = assigned.layout level)
    (step : ∀ frames, Compositor.assigned ⟨frames, assigned.seam 0⟩ = some ⟨frames, .apart⟩)
    (legible : word.Legible) (isOp : AssignOp.ofKind? word.kind = some op)
    (inner : Expr.Typeset words value) :
    Stmt.ShortTypeset (front ++ word :: words) (.assign target op value ()) := by
  have layout : ∀ level, Stmt.layout level (.assign target op value ()) =
      infixed (assigned.layout level) op.spelling (value.layout level) := fun level => by
    rw [Stmt.layout, sameLayout]
  refine ⟨⟨fun level => ?_, fun frames seam fresh _ => ?_⟩, rfl⟩
  · rw [layout]
    exact leads_append (first.leads level) _
  · have ready := Seam.isReady_of_isFresh fresh
    have target := first.enters frames seam ready.1
    rw [ready.2] at target
    rw [layout, List.map_append, List.map_cons]
    exact .append (first.leads _) target
      (sets_assignment legible isOp (assigned.isSettled_seam 0) (step frames) inner)

end Short

/-! ## Statements that need lines of their own -/

section Statements

variable {opening name bracket middle equals : Lexeme}
variable {body : List (Stmt Unit)} {fields : List (Param Unit)} {divided shared : Bool}
variable {frames : List Frame} {seam : Seam} {items : List Item} {back : Layout}
variable {after : Compositor} {methodName : String}

theorem typeset_use {path : List String} (legible : opening.Legible ∧ ∀ word ∈ words, word.Legible)
    (opens : opening.kind = .keyword .kwUse)
    (joined : Joined [.symbol .doubleColon, .symbol .dot] words path) :
    Stmt.Typeset (opening :: words) (.use path ()) := by
  obtain ⟨filled, areNames⟩ := joined.areNames legible.2
  refine ⟨fun level => ?_, fun frames seam fresh _ => ?_⟩
  · exact (by decide : Item.leads (.word "use") = true)
  · rw [List.map_cons, legible.1.item_keyword opens]
    exact .word (.keyword .kwUse) rfl ((enters_modulePath joined legible.2 (.inl rfl)).spaced
      (leads_path filled areNames) rfl)

theorem next_declaration {word : Keyword} (isDeclaration : word = .kwClass ∨ word = .kwDef)
    (begins : seam.beginsLine = true) :
    Compositor.next ⟨frames, seam⟩ (.keyword word) = some ⟨.block false :: frames, .title⟩ := by
  rcases isDeclaration with rfl | rfl <;> exact if_pos begins

theorem typeset_classBare (legible : opening.Legible ∧ name.Legible)
    (opens : opening.kind = .keyword .kwClass) (isName : name.kind = .name)
    (inner : Stmt.BodyTypeset words body) :
    Stmt.Typeset (opening :: name :: words) (.classBare name.text body ()) := by
  refine ⟨fun level => ?_, fun frames seam fresh begins => ?_⟩
  · exact (by decide : Item.leads (.word "class") = true)
  · simp only [List.map_cons, legible.1.item_keyword opens, item_name isName]
    refine .word (.keyword .kwClass) (next_declaration (.inl rfl) (begins rfl)) ?_
    exact .spaced (.name (legible.2.isName isName)) rfl rfl
      (inner.sets (show Seam.path ≠ .line by decide))

/-- The parameters of a declaration behind its name. -/
theorem sets_params (legible : bracket.Legible) (isBracket : bracket.kind = .symbol .lparen)
    (params : Part.param.ItemsTypeset .round list (fields, divided))
    (rest : Sets ⟨.block false :: frames, .signature⟩ items back after) :
    Sets ⟨.block false :: frames, .path⟩ (bracket.item :: (list.map item ++ items))
      (.word "(" :: (commas (Param.layouts (depth frames) fields) ++ (.word ")" :: back)))
      after := by
  have inner := (params.sets .params rfl (.block false :: frames) (by simp)).append rest
  rw [legible.item_symbol isBracket]
  refine .tight (.symbol .lparen) rfl rfl ?_
  rwa [List.append_assoc] at inner

theorem typeset_classFields (legible : opening.Legible ∧ name.Legible ∧ bracket.Legible)
    (opens : opening.kind = .keyword .kwClass) (isName : name.kind = .name)
    (isBracket : bracket.kind = .symbol .lparen)
    (params : Part.param.ItemsTypeset .round list (fields, divided))
    (inner : Stmt.BodyTypeset words body) :
    Stmt.Typeset (opening :: name :: bracket :: (list ++ words))
      (.classFields name.text fields body ()) := by
  obtain ⟨legibleOpening, legibleName, legibleBracket⟩ := legible
  refine ⟨fun level => ?_, fun frames seam fresh begins => ?_⟩
  · exact (by decide : Item.leads (.word "class") = true)
  · have layout : Stmt.layout (depth frames) (.classFields name.text fields body ()) =
        .word "class" :: .space :: .word name.text :: .word "(" ::
          (commas (Param.layouts (depth frames) fields) ++ (.word ")" ::
            (lines (depth frames + 1) (Stmt.layouts (depth frames + 1) body) ++
              [.line (depth frames), .word "end"]))) := by
      simp [Stmt.layout, Layout.block, classFieldsHead, classHead, Layout.parenthesized]
    simp only [List.map_cons, List.map_append, legibleOpening.item_keyword opens,
      item_name isName, layout]
    refine .word (.keyword .kwClass) (next_declaration (.inl rfl) (begins rfl)) ?_
    refine .spaced (.name (legibleName.isName isName)) rfl rfl ?_
    exact sets_params legibleBracket isBracket params (inner.sets (by simp))

theorem sets_methodName (named : MethodName shared head methodName)
    (legible : ∀ word ∈ head, word.Legible) (rest : Sets ⟨frames, .path⟩ items back after) :
    Sets ⟨frames, .title⟩ (head.map item ++ items)
      (.space :: ((if shared then [.word "self", .word "::", .word methodName]
        else [.word methodName]) ++ back)) after := by
  cases named with
  | own isName =>
    simp only [List.map_cons, List.map_nil, List.cons_append, List.nil_append, item_name isName]
    exact .spaced (.name ((legible _ (by simp)).isName isName)) rfl rfl rest
  | shared isOwner isSelf isColons isName =>
    obtain ⟨legibleOwner, legibleColons, legibleName⟩ := by simpa using legible
    have isOwnerName := legibleOwner.isName isOwner
    rw [isSelf] at isOwnerName
    simp only [List.map_cons, List.map_nil, List.cons_append, List.nil_append, item_name isOwner,
      isSelf, legibleColons.item_symbol isColons, item_name isName]
    refine .spaced (.name isOwnerName) rfl rfl (.tight (.symbol .doubleColon) rfl rfl ?_)
    exact .tight (.name (legibleName.isName isName)) rfl rfl rest

theorem enters_methodHead
    (legible : opening.Legible ∧ (∀ word ∈ head, word.Legible) ∧ bracket.Legible)
    (opens : opening.kind = .keyword .kwDef) (named : MethodName shared head methodName)
    (isBracket : bracket.kind = .symbol .lparen)
    (params : Part.param.ItemsTypeset .round list (fields, divided))
    (begins : seam.beginsLine = true)
    (rest : Sets ⟨.block false :: frames, .signature⟩ items back after) :
    Enters ⟨frames, seam⟩
      (opening.item :: (head.map item ++ bracket.item :: (list.map item ++ items)))
      (methodHead shared methodName (Param.layouts (depth frames) fields) ++ back) after := by
  obtain ⟨legibleOpening, legibleHead, legibleBracket⟩ := legible
  have layout : methodHead shared methodName (Param.layouts (depth frames) fields) ++ back =
      .word "def" :: .space :: ((if shared then [.word "self", .word "::", .word methodName]
        else [.word methodName]) ++ (.word "(" ::
          (commas (Param.layouts (depth frames) fields) ++ (.word ")" :: back)))) := by
    simp [methodHead, Layout.parenthesized]
  rw [legibleOpening.item_keyword opens, layout]
  refine .word (.keyword .kwDef) (next_declaration (.inr rfl) begins) ?_
  exact sets_methodName named legibleHead (sets_params legibleBracket isBracket params rest)

theorem typeset_methodValue {value : Expr Unit}
    (legible : opening.Legible ∧ (∀ word ∈ head, word.Legible) ∧ bracket.Legible)
    (legibleEquals : equals.Legible) (opens : opening.kind = .keyword .kwDef)
    (named : MethodName shared head methodName) (isBracket : bracket.kind = .symbol .lparen)
    (params : Part.param.ItemsTypeset .round list (fields, divided))
    (isEquals : equals.kind = .symbol .assign) (inner : Expr.Typeset words value) :
    Stmt.Typeset (opening :: (head ++ bracket :: (list ++ equals :: words)))
      (.methodValue shared methodName fields value ()) := by
  refine ⟨fun level => ?_, fun frames seam fresh begins => ?_⟩
  · exact (by decide : Item.leads (.word "def") = true)
  · have isOp : AssignOp.ofKind? equals.kind = some .set := by rw [isEquals]; rfl
    simp only [List.map_cons, List.map_append]
    exact enters_methodHead legible opens named isBracket params (begins rfl)
      (sets_assignment legibleEquals isOp rfl rfl inner)

theorem typeset_methodBlock
    (legible : opening.Legible ∧ (∀ word ∈ head, word.Legible) ∧ bracket.Legible)
    (opens : opening.kind = .keyword .kwDef) (named : MethodName shared head methodName)
    (isBracket : bracket.kind = .symbol .lparen)
    (params : Part.param.ItemsTypeset .round list (fields, divided))
    (inner : Stmt.BodyTypeset words body) :
    Stmt.Typeset (opening :: (head ++ bracket :: (list ++ words)))
      (.methodBlock shared methodName fields body ()) := by
  refine ⟨fun level => ?_, fun frames seam fresh begins => ?_⟩
  · exact (by decide : Item.leads (.word "def") = true)
  · simp only [List.map_cons, List.map_append]
    exact enters_methodHead legible opens named isBracket params (begins rfl) (inner.sets (by simp))

theorem typeset_forLoop {bindings : List String} {source : Expr Unit}
    (legible : opening.Legible ∧ (∀ word ∈ head, word.Legible) ∧ middle.Legible)
    (opens : opening.kind = .keyword .kwFor) (joined : Joined [.symbol .comma] head bindings)
    (isIn : middle.kind = .keyword .kwIn) (elements : Expr.Typeset list source)
    (inner : Stmt.BodyTypeset words body) :
    Stmt.Typeset (opening :: (head ++ middle :: (list ++ words)))
      (.forLoop bindings source body ()) := by
  obtain ⟨legibleOpening, legibleHead, legibleMiddle⟩ := legible
  obtain ⟨filled, areNames⟩ := joined.areNames legibleHead
  refine ⟨fun level => ?_, fun frames seam fresh _ => ?_⟩
  · exact (by decide : Item.leads (.word "for") = true)
  · have layout : Stmt.layout (depth frames) (.forLoop bindings source body ()) =
        .word "for" :: (.space :: Layout.names bindings) ++ (.space :: .word "in" ::
          (.space :: source.layout (depth frames)) ++
            (lines (depth frames + 1) (Stmt.layouts (depth frames + 1) body) ++
              [.line (depth frames), .word "end"])) := by
      simp [Stmt.layout, Layout.block, forHead]
    have names : Enters ⟨.block false :: frames, .apart⟩ _ (Layout.names bindings) _ :=
      enters_names filled areNames rfl
    simp only [List.map_cons, List.map_append, legibleOpening.item_keyword opens,
      legibleMiddle.item_keyword isIn, items_names joined legibleHead, layout]
    refine .word (.keyword .kwFor) rfl ((names.spaced (leads_names filled areNames) rfl).append ?_)
    exact .spaced (.keyword .kwIn) rfl rfl ((elements.spaced (.block false :: frames)).append
      (inner.sets (source.seam_ne_line 0)))

theorem typeset_whileLoop {condition : Expr Unit} (legible : opening.Legible)
    (opens : opening.kind = .keyword .kwWhile) (test : Expr.Typeset head condition)
    (inner : Stmt.BodyTypeset words body) :
    Stmt.Typeset (opening :: (head ++ words)) (.whileLoop condition body ()) := by
  refine ⟨fun level => ?_, fun frames seam fresh _ => ?_⟩
  · exact (by decide : Item.leads (.word "while") = true)
  · have tested := test.spaced (.block false :: frames)
    rw [List.map_cons, List.map_append, legible.item_keyword opens]
    exact .word (.keyword .kwWhile) rfl (tested.append (inner.sets (condition.seam_ne_line 0)))

end Statements

/-! ## Items of lists -/

section Items

variable {key name colon equals : Lexeme} {value : Expr Unit}

theorem typeset_expressionItem (inner : Expr.Typeset words value) :
    Part.expression.Typeset words value := by
  refine ⟨inner.leads, fun frame frames seam holds listed => ?_⟩
  have enters := inner.enters (frame :: frames) seam (Seam.isReady_of_isListed listed)
  rw [depth_of_holds holds] at enters
  exact ⟨_, value.isSettled_seam _, enters⟩

theorem typeset_entryItem (legible : key.Legible ∧ colon.Legible) (isKey : key.kind = .name)
    (isColon : colon.kind = .symbol .colon) (inner : Expr.Typeset words value) :
    Part.entry.Typeset (key :: colon :: words) (.mk key.text value () : Entry Unit) := by
  have isName := legible.1.isName isKey
  refine ⟨fun level => leads_name isName _, fun frame frames seam holds listed => ?_⟩
  have behind := inner.spaced (frame :: frames)
  rw [depth_of_holds holds] at behind
  refine ⟨_, value.isSettled_seam 0, ?_⟩
  simp only [List.map_cons, item_name isKey, legible.2.item_symbol isColon]
  exact .word (.name isName) rfl (.tight (.symbol .colon) (gap_of_clings _ rfl) rfl behind)

theorem typeset_plainItem (legible : name.Legible) (isName : name.kind = .name) :
    Part.param.Typeset [name] (.plain name.text () : Param Unit) := by
  refine ⟨fun level => leads_name (legible.isName isName) _,
    fun frame frames seam holds listed => ⟨.name seam.chain, rfl, ?_⟩⟩
  simp only [List.map_cons, List.map_nil, item_name isName]
  exact .word (.name (legible.isName isName)) (next_name (Seam.isReady_of_isListed listed)) .nil

theorem typeset_defaultedItem (legible : name.Legible ∧ equals.Legible) (isName : name.kind = .name)
    (isEquals : equals.kind = .symbol .assign) (inner : Expr.Typeset words value) :
    Part.param.Typeset (name :: equals :: words)
      (.defaulted name.text value () : Param Unit) := by
  refine ⟨fun level => leads_name (legible.1.isName isName) _,
    fun frame frames seam holds listed => ⟨value.seam 0, value.isSettled_seam 0, ?_⟩⟩
  obtain rfl : frame = .params := by cases frame <;> first | contradiction | rfl
  have isOp : AssignOp.ofKind? equals.kind = some .set := by rw [isEquals]; rfl
  have assigned : Sets ⟨.params :: frames, .name seam.chain⟩ _ _
      ⟨.params :: frames, value.seam 0⟩ := sets_assignment legible.2 isOp rfl rfl inner
  simp only [List.map_cons, item_name isName]
  exact .word (.name (legible.1.isName isName)) (next_name (Seam.isReady_of_isListed listed))
    assigned

end Items

/-! ## All phrases -/

/-- What can be assigned to is a row of names, written as a tuple, or does not change what is
open. -/
theorem assigned_cases {assigned : Expr Unit} {target : Target Unit}
    (isTarget : assigned.toTarget? = some target) :
    (∃ values names, assigned = .tuple values () ∧ target = .names names ()) ∨
      (∀ level, target.layout level = assigned.layout level) ∧
        ∀ frames, Compositor.assigned ⟨frames, assigned.seam 0⟩ = some ⟨frames, .apart⟩ := by
  have same : ∀ frames, some (Compositor.mk (untally 0 frames) .apart) = some ⟨frames, .apart⟩ :=
    fun frames => by rw [untally_zero]
  unfold Expr.toTarget? at isTarget
  split at isTarget
  · cases isTarget
    exact .inr ⟨fun _ => rfl, same⟩
  · cases isTarget
    exact .inr ⟨fun _ => rfl, same⟩
  · cases isTarget
    exact .inr ⟨fun _ => rfl, same⟩
  · obtain ⟨names, -, rfl⟩ := Option.map_eq_some_iff.mp isTarget
    exact .inl ⟨_, names, rfl, rfl⟩
  · contradiction

theorem Derives.typeset {levels : Nat} {next : Kind} {phrase : Phrase} {tree : phrase.Tree Unit}
    (derives : Derives levels phrase words next tree) (legible : ∀ word ∈ words, word.Legible) :
    phrase.Typeset words tree := by
  induction derives with
      try simp only [List.forall_mem_cons, List.forall_mem_append] at legible
  | nested inner ih => exact ih legible
  | nestedLines inner ih => exact ih legible
  | number isNumber =>
    exact typeset_literal legible.1 (.inl isNumber)
      (fun _ => by simp [Expr.layout, item, isNumber]) fun _ => rfl
  | string isString =>
    exact typeset_literal legible.1 (.inr (.inl isString))
      (fun _ => by simp [Expr.layout, item, isString]) fun _ => rfl
  | boolean isBoolean =>
    exact typeset_literal legible.1 (.inr (.inr (.inl isBoolean)))
      (fun _ => (legible.1.item_boolean isBoolean).symm) fun _ => rfl
  | nil isNil =>
    exact typeset_literal legible.1 (.inr (.inr (.inr isNil)))
      (fun _ => by rw [legible.1.item_nil isNil]; rfl) fun _ => rfl
  | name isName => exact typeset_name legible.1 isName
  | path joined several => exact typeset_path joined several legible
  | grouping opens list ih =>
    exact typeset_grouping legible.1 opens (ih legible.2)
  | tuple opens list isTuple ih =>
    exact typeset_tuple legible.1 opens (ih legible.2) isTuple
  | emptyDictionary opens before isColon after closes =>
    obtain ⟨legibleOpening, -, legibleColon, -, legibleClosing, -⟩ := legible
    exact typeset_emptyDictionary ⟨legibleOpening, legibleColon, legibleClosing⟩ opens before
      isColon after closes
  | dictionary opens list filled ih =>
    exact typeset_dictionary legible.1 opens (ih legible.2) filled
  | array opens list ih =>
    exact typeset_array legible.1 opens (ih legible.2)
  | closureLine opens joined isArrow inner closes ih =>
    obtain ⟨legibleOpening, legibleHead, legibleArrow, legibleBody, legibleClosing, -⟩ := legible
    exact typeset_closureLine ⟨legibleOpening, legibleHead, legibleArrow⟩ legibleClosing opens
      joined isArrow (ih legibleBody) closes
  | closureBlock opens joined isArrow isDo isBreak inner closes ih =>
    obtain ⟨legibleOpening, legibleHead, legibleArrow, legibleStart, legibleBody⟩ := legible
    exact typeset_closureBlock ⟨legibleOpening, legibleHead, legibleArrow⟩ legibleStart opens
      joined isArrow isDo (.ofLines isBreak ih closes legibleBody)
  | ofPrimary inner ih => exact ih legible
  | call target opens inner ihTarget ihInner =>
    exact typeset_call (ihTarget legible.1) legible.2.1 opens
      (ihInner legible.2.2)
  | access target isDot isName ih =>
    exact typeset_access (ih legible.1) ⟨legible.2.1, legible.2.2.1⟩ isDot isName
  | ofMembers inner ih => exact ih legible
  | index target opens inner closes ihTarget ihInner =>
    obtain ⟨legibleTarget, legibleOpening, legiblePlace, legibleClosing, -⟩ := legible
    exact typeset_index (ihTarget legibleTarget) ⟨legibleOpening, legibleClosing⟩ opens
      (ihInner legiblePlace) closes
  | ofIndexed inner ih => exact ih legible
  | ofSigned inner ih => exact ih legible
  | unary isOp inner ih =>
    exact typeset_unary legible.1 isOp (ih legible.2)
  | ofOperand inner ih => exact ih legible
  | ofTighter inner ih => exact ih legible
  | binary first isOp rank second ihFirst ihSecond =>
    exact typeset_binary (ihFirst legible.1) legible.2.1 isOp
      (ihSecond legible.2.2)
  | ofBinary inner ih => exact (ih legible).toTypeset
  | ifLine opens test isThen inner noElse ihTest ihInner =>
    obtain ⟨legibleOpening, legibleHead, legibleMiddle, legibleBody⟩ := legible
    exact typeset_ifLine ⟨legibleOpening, legibleMiddle⟩ opens (ihTest legibleHead) isThen
      (ihInner legibleBody)
  | ifLineElse opens test isThen inner isElse innerElse ihTest ihInner ihElse =>
    obtain ⟨legibleOpening, legibleHead, legibleMiddle, legibleThen, legibleOther,
      legibleElse⟩ := legible
    exact typeset_ifLineElse ⟨legibleOpening, legibleMiddle⟩ legibleOther opens
      (ihTest legibleHead) isThen (ihInner legibleThen) isElse
      (ihElse legibleElse)
  | ifBlock opens test isBreak inner closes ihTest ihInner =>
    exact typeset_ifBlock legible.1 opens (ihTest legible.2.1)
      (.ofLines isBreak ihInner closes legible.2.2)
  | ifBlockElse opens test isBreak inner isElse isElseBreak innerElse closes ihTest
      ihInner ihElse =>
    obtain ⟨legibleOpening, legibleHead, -, legibleThen, legibleOther, legibleElse⟩ := legible
    exact typeset_ifBlockElse ⟨legibleOpening, legibleOther⟩ opens (ihTest legibleHead) isBreak
      (ihInner legibleThen) isElse (.ofLines isElseBreak ihElse closes legibleElse)
  | breakLoop isBreak =>
    exact typeset_keyword .kwBreak legible.1 isBreak rfl (fun _ _ => rfl)
      (fun _ => rfl) rfl rfl
  | continueLoop isContinue =>
    exact typeset_keyword .kwContinue legible.1 isContinue rfl (fun _ _ => rfl)
      (fun _ => rfl) rfl rfl
  | returnNothing isReturn stops =>
    exact typeset_keyword .kwReturn legible.1 isReturn rfl (fun _ _ => rfl)
      (fun _ => rfl) rfl rfl
  | returnValue isReturn inner ih =>
    exact typeset_returnValue legible.1 isReturn (ih legible.2)
  | assign first isTarget isOp second ihFirst ihSecond =>
    obtain ⟨legibleTarget, legibleWord, legibleValue⟩ := legible
    have assigned := ihFirst legibleTarget
    have value := ihSecond legibleValue
    rcases assigned_cases isTarget with ⟨values, names, rfl, rfl⟩ | ⟨sameLayout, step⟩
    · obtain ⟨filled, -, found⟩ := first.names_of_target isTarget
      refine typeset_assignTuple assigned filled (fun name member => ?_) legibleWord isOp value
      obtain ⟨other, inside, isName, rfl⟩ := found name member
      exact (legibleTarget other inside).isName isName
    · exact typeset_assign assigned sameLayout step legibleWord isOp value
  | assignNames joined several isOp inner ih =>
    exact typeset_assignNames joined legible.1 legible.2.1 isOp (ih legible.2.2)
  | ofExpression inner ih =>
    exact typeset_expression (ih legible)
  | use opens joined => exact typeset_use legible opens joined
  | classBare opens isName isBreak inner closes ih =>
    exact typeset_classBare ⟨legible.1, legible.2.1⟩ opens isName
      (.ofLines isBreak ih closes legible.2.2)
  | classFields opens isName isBracket params isBreak inner closes ihParams ihInner =>
    obtain ⟨legibleOpening, legibleName, legibleBracket, legibleParams, legibleBody⟩ := legible
    exact typeset_classFields ⟨legibleOpening, legibleName, legibleBracket⟩ opens isName isBracket
      (ihParams legibleParams) (.ofLines isBreak ihInner closes legibleBody)
  | methodValue opens named isBracket params isEquals inner ihParams ihInner =>
    obtain ⟨legibleOpening, legibleName, legibleBracket, legibleParams, legibleEquals,
      legibleValue⟩ := legible
    exact typeset_methodValue ⟨legibleOpening, legibleName, legibleBracket⟩ legibleEquals opens
      named isBracket (ihParams legibleParams) isEquals (ihInner legibleValue)
  | methodBlock opens named isBracket params isBreak inner closes ihParams ihInner =>
    obtain ⟨legibleOpening, legibleName, legibleBracket, legibleParams, legibleBody⟩ := legible
    exact typeset_methodBlock ⟨legibleOpening, legibleName, legibleBracket⟩ opens named isBracket
      (ihParams legibleParams) (.ofLines isBreak ihInner closes legibleBody)
  | forLoop opens joined isIn elements isBreak inner closes ihElements ihInner =>
    obtain ⟨legibleOpening, legibleNames, legibleMiddle, legibleSource, legibleBody⟩ := legible
    exact typeset_forLoop ⟨legibleOpening, legibleNames, legibleMiddle⟩ opens joined isIn
      (ihElements legibleSource) (.ofLines isBreak ihInner closes legibleBody)
  | whileLoop opens test isBreak inner closes ihTest ihInner =>
    exact typeset_whileLoop legible.1 opens (ihTest legible.2.1)
      (.ofLines isBreak ihInner closes legible.2.2)
  | ofShort inner ih => exact (ih legible).toTypeset
  | noLine ends => exact Stmt.LinesTypeset.noLine
  | emptyLine isBreak rest ih =>
    exact .emptyLine isBreak (ih legible.2)
  | line inner isBreak rest ihInner ihRest =>
    exact .line (ihInner legible.1) isBreak (ihRest legible.2.2)
  | expressionItem inner ih =>
    exact typeset_expressionItem (ih legible)
  | entryItem isKey isColon inner ih =>
    exact typeset_entryItem ⟨legible.1, legible.2.1⟩ isKey isColon (ih legible.2.2)
  | plainItem isName => exact typeset_plainItem legible.1 isName
  | defaultedItem isName isEquals inner ih =>
    exact typeset_defaultedItem ⟨legible.1, legible.2.1⟩ isName isEquals (ih legible.2.2)
  | noItem before closes => exact .noItem before legible.2.1 closes
  | lastItem before inner after closes ih =>
    exact .lastItem before (ih legible.2.1) after legible.2.2.2.1 closes
  | moreItems before inner after isComma others ihInner ihOthers =>
    exact .moreItems before (ihInner legible.2.1) after legible.2.2.2.1 isComma
      (ihOthers legible.2.2.2.2)

end Parlance.Grammar
