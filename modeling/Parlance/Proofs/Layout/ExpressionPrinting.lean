import Parlance.Proofs.Layout.Printing

/-!
Contract: how the expressions of the grammar are printed.

One law for each rule: if the parts are printed, so is the whole. Owns: the laws of primaries, of
chains of members, calls and indexes, of operators and of conditionals. Does not own: the laws of
statements, and the induction that joins them.
-/

namespace Parlance.Grammar

open Lexeme Layout

variable {levels : Nat} {next : Kind} {line : Bool}
variable {words head list elseWords : List Lexeme}
variable {opening word closing : Lexeme} {divided : Bool} {values : List (Expr Unit)}

/-! ## Primaries -/

theorem printable_number (legible : word.Legible) (isNumber : word.kind = .number) :
    Printable levels .primary [word] next (.number word.text ()) :=
  fun _ => ⟨_, legible.reads_number isNumber, fun _ _ _ => .number rfl, by simp [Expr.misplaced]⟩

theorem printable_string (legible : word.Legible) (isString : word.kind = .string) :
    Printable levels .primary [word] next (.string word.text word.quote ()) :=
  fun _ => ⟨_, legible.reads_string isString, fun _ _ _ => .string rfl, by simp [Expr.misplaced]⟩

theorem printable_boolean (value : Bool) :
    Printable levels .primary words next (.boolean value ()) := by
  intro level
  cases value with
  | true =>
    have reads : Layout.Reads [.word "true"] [⟨.boolean, "true", ""⟩] :=
      fun _ _ _ _ clear => .ofWord (by decide) clear .nil
    exact ⟨_, reads, fun _ _ _ => .boolean rfl, by simp [Expr.misplaced]⟩
  | false =>
    have reads : Layout.Reads [.word "false"] [⟨.boolean, "false", ""⟩] :=
      fun _ _ _ _ clear => .ofWord (by decide) clear .nil
    exact ⟨_, reads, fun _ _ _ => .boolean rfl, by simp [Expr.misplaced]⟩

theorem printable_nil : Printable levels .primary words next (.nil ()) := by
  intro level
  have reads : Layout.Reads [.word "nil"] [⟨.nil, "nil", ""⟩] :=
    fun _ _ _ _ clear => .ofWord (by decide) clear .nil
  exact ⟨_, reads, fun _ _ _ => .nil rfl, by simp [Expr.misplaced]⟩

theorem printable_name {name : String} (isName : IsName name) :
    Printable levels .primary words next (.variable name ()) :=
  fun _ => ⟨_, reads_name isName, fun _ _ _ => .name rfl, by simp [Expr.misplaced]⟩

theorem printable_path {names : List String} (areNames : ∀ name ∈ names, IsName name)
    (several : 2 ≤ names.length) :
    Printable levels .primary words next (.path names ()) := by
  have filled : names ≠ [] := by
    rintro rfl
    simp at several
  exact fun _ => ⟨_, reads_path areNames, fun _ _ _ => .path (joined_pathRow rfl filled) several,
    by simp [Expr.misplaced, parens_pathRow]⟩

/-! ## Brackets -/

theorem printable_grouping {value : Expr Unit} (opens : opening.kind = .symbol .lparen)
    (items : Printable levels (.items .expression .round) list next ([value], false)) :
    Printable levels .primary (opening :: list) next (.grouping value ()) := by
  intro level
  obtain ⟨rows, reads, derives, count⟩ := items.items level
  refine ⟨_, fun _ _ _ _ _ => scans_parenthesized (reads_commas reads),
    fun placed after _ => ?_, ?_⟩
  · exact .grouping rfl (derives placed after)
  · simp [opens, Part.misplacedAll, Expr.misplacedAll, Expr.misplaced] at count ⊢
    omega

/-- A tuple that is empty or holds several elements is printed without a comma at its end. -/
theorem printable_tuple_commas (opens : opening.kind = .symbol .lparen)
    (items : Printable levels (.items .expression .round) list next (values, divided))
    (isTuple : values = [] ∨ 2 ≤ values.length) :
    Printable levels .primary (opening :: list) next (.tuple values ()) := by
  intro level
  obtain ⟨rows, reads, derives, count⟩ := items.items level
  have layout : Expr.layout level (.tuple values ()) =
      Layout.parenthesized (commas (Expr.layouts level values)) := by
    match values, isTuple with
    | [], _ => rfl
    | _ :: _ :: _, _ => rfl
  refine ⟨.ofSymbol .lparen :: (commaRow rows ++ [.ofSymbol .rparen]), ?_,
    fun placed after _ => ?_, ?_⟩
  · rw [layout]
    exact fun _ _ _ _ _ => scans_parenthesized (reads_commas reads)
  · exact .tuple rfl (derives placed after) (isTuple.imp_right decide_eq_true)
  · simp [opens, Part.misplacedAll, Expr.misplaced] at count ⊢
    omega

theorem printable_tuple (opens : opening.kind = .symbol .lparen)
    (items : Printable levels (.items .expression .round) list next (values, divided)) :
    Printable levels .primary (opening :: list) next (.tuple values ()) := by
  match values, items with
  | [], items => exact printable_tuple_commas opens items (.inl rfl)
  | _ :: _ :: _, items => exact printable_tuple_commas opens items (.inr (by simp))
  | [value], items =>
    intro level
    obtain ⟨row, reads, derives, count⟩ := items.onlyItem level
    refine ⟨_, fun _ _ _ _ _ => scans_parenthesized (reads_onlyItem reads),
      fun placed after _ => ?_, ?_⟩
    · exact .tuple rfl (derives placed after) (.inr rfl)
    · simp [opens, Part.misplaced, Expr.misplacedAll, Expr.misplaced] at count ⊢
      omega

theorem printable_emptyDictionary : Printable levels .primary words next (.dictionary [] ()) := by
  intro level
  have derives : ∀ after, Derives levels .primary
      (.ofSymbol .lbracket :: ([] ++ .ofSymbol .colon :: ([] ++ [.ofSymbol .rbracket]))) after
      (.dictionary [] ()) := fun _ => .emptyDictionary rfl .nil rfl .nil rfl
  exact ⟨_, reads_emptyDictionary, fun _ after _ => derives after,
    by simp [Expr.misplaced, Entry.misplacedAll]⟩

theorem printable_dictionary {entries : List (Entry Unit)}
    (items : Printable levels (.items .entry .square) list next (entries, divided))
    (filled : entries ≠ []) :
    Printable levels .primary (opening :: list) next (.dictionary entries ()) := by
  intro level
  obtain ⟨rows, reads, derives, count⟩ := items.items level
  have layout : Expr.layout level (.dictionary entries ()) =
      Layout.bracketed (commas (Entry.layouts level entries)) := by
    match entries, filled with
    | _ :: _, _ => rfl
  refine ⟨.ofSymbol .lbracket :: (commaRow rows ++ [.ofSymbol .rbracket]), ?_,
    fun placed after _ => ?_, ?_⟩
  · rw [layout]
    exact fun _ _ _ _ _ => scans_bracketed (reads_commas reads)
  · exact .dictionary rfl (derives placed after) filled
  · simp [Part.misplacedAll, Expr.misplaced] at count ⊢
    omega

theorem printable_array
    (items : Printable levels (.items .expression .square) list next (values, divided)) :
    Printable levels .primary (opening :: list) next (.array values ()) := by
  intro level
  obtain ⟨rows, reads, derives, count⟩ := items.items level
  refine ⟨_, fun _ _ _ _ _ => scans_bracketed (reads_commas reads), fun placed after _ => ?_, ?_⟩
  · exact .array rfl (derives placed after)
  · simp [Part.misplacedAll, Expr.misplaced] at count ⊢
    omega

/-! ## Closures -/

theorem printable_closureLine {arrow : Lexeme} {params : List String} {body : Stmt Unit}
    (joined : Joined [.symbol .comma] head params) (legible : ∀ word ∈ head, word.Legible)
    (inner : Printable levels (.short false) words (.keyword .kwEnd) body) :
    Printable levels .primary (opening :: (head ++ arrow :: (words ++ [closing]))) next
      (.closureLine params body ()) := by
  intro level
  obtain ⟨filled, areNames⟩ := joined.areNames legible
  obtain ⟨printed, prints⟩ := inner level
  refine ⟨_, reads_closureLine areNames prints.reads, fun placed after _ => ?_, ?_⟩
  · exact .closureLine rfl (joined_commaRow filled) rfl
      (prints.derives placed _ (.refl _)) rfl
  · have count := prints.parens
    simp [parens_names, Expr.misplaced] at count ⊢
    omega

theorem printable_closureBlock {arrow start lineEnd : Lexeme} {params : List String}
    {body : List (Stmt Unit)} (joined : Joined [.symbol .comma] head params)
    (legible : ∀ word ∈ head, word.Legible)
    (inner : Printable levels (.nestedLines .closureBody) words (.keyword .kwEnd) body) :
    Printable levels .primary
      (opening :: (head ++ arrow :: start :: lineEnd :: (words ++ [closing]))) next
      (.closureBlock params body ()) := by
  intro level
  obtain ⟨filled, areNames⟩ := joined.areNames legible
  obtain ⟨rows, reads, derives, count⟩ := inner (level + 1)
  refine ⟨_, reads_closureBlock areNames reads, fun placed after _ => ?_, ?_⟩
  · exact .closureBlock rfl (joined_commaRow filled) rfl rfl rfl (derives placed) rfl
  · simp [parens_names, Expr.misplaced] at count ⊢
    omega

/-! ## Chains of members, calls and indexes -/

theorem printable_call {callee : Expr Unit} {args : List (Expr Unit)}
    (target : Printable levels .members words (.symbol .lparen) callee)
    (opens : opening.kind = .symbol .lparen)
    (inner : Printable levels (.items .expression .round) list next (args, divided)) :
    Printable levels .members (words ++ opening :: list) next (.call callee args ()) := by
  intro level
  obtain ⟨printed, prints⟩ := target level
  obtain ⟨rows, reads, derives, countArgs⟩ := inner.items level
  refine ⟨_, reads_call prints.reads (reads_commas reads), fun placed after _ => ?_, ?_⟩
  · obtain ⟨placedTarget, placedArgs⟩ := Nat.add_eq_zero_iff.mp placed
    exact .call (prints.derives placedTarget _ (.refl _)) rfl (derives placedArgs after)
  · have count := prints.parens
    simp [opens, Part.misplacedAll, Expr.misplaced] at count countArgs ⊢
    omega

theorem printable_access {dot member : Lexeme} {owner : Expr Unit}
    (target : Printable levels .members words (.symbol .dot) owner) (isName : IsName member.text) :
    Printable levels .members (words ++ [dot, member]) next (.access owner member.text ()) := by
  intro level
  obtain ⟨printed, prints⟩ := target level
  refine ⟨_, reads_access prints.reads isName, fun placed after _ => ?_, ?_⟩
  · exact .access (prints.derives placed _ (.refl _)) rfl rfl
  · have count := prints.parens
    simp [Expr.misplaced] at count ⊢
    omega

theorem printable_index {owner place : Expr Unit}
    (target : Printable levels .indexed words (.symbol .lbracket) owner)
    (inner : Printable levels (.nested false) list (.symbol .rbracket) place) :
    Printable levels .indexed (words ++ opening :: (list ++ [closing])) next
      (.index owner place ()) := by
  intro level
  obtain ⟨printed, prints⟩ := target level
  obtain ⟨inside, printsInside⟩ := inner level
  refine ⟨_, reads_index prints.reads printsInside.reads, fun placed after _ => ?_, ?_⟩
  · obtain ⟨placedTarget, placedInside⟩ := Nat.add_eq_zero_iff.mp placed
    exact .index (prints.derives placedTarget _ (.refl _)) rfl
      (printsInside.derives placedInside _ (.refl _)) rfl
  · have count := prints.parens
    have countInside := printsInside.parens
    simp [Expr.misplaced] at count countInside ⊢
    omega

/-! ## Operators -/

/-- A layout that begins with a character, and not with one that makes another symbol of a minus
sign. -/
def Opens (layout : Layout) : Prop :=
  ∃ first, layout.head? = some first ∧ first ≠ '=' ∧ first ≠ '>'

theorem printable_unary {op : UnaryOp} {value : Expr Unit}
    (opens : ∀ level, Opens (value.layout level))
    (inner : Printable levels (.prefixed op) words next value) :
    Printable levels (.prefixed op) (word :: words) next (.unary op value ()) := by
  intro level
  obtain ⟨printed, prints⟩ := inner level
  obtain ⟨first, isFirst, noSymbol⟩ := opens level
  have count := prints.parens
  cases op with
  | not =>
    refine ⟨_, reads_not prints.reads, fun placed after replaces => ?_, ?_⟩
    · exact .unary rfl (prints.derives placed after replaces)
    · simp [Expr.misplaced] at count ⊢
      omega
  | minus =>
    refine ⟨_, reads_minus isFirst noSymbol prints.reads, fun placed after replaces => ?_, ?_⟩
    · exact .unary rfl (prints.derives placed after replaces)
    · simp [Expr.misplaced] at count ⊢
      omega

def binaryWord : BinaryOp → Lexeme
  | .or => .ofKeyword .kwOr
  | .and => .ofKeyword .kwAnd
  | .equal => .ofSymbol .equal
  | .notEqual => .ofSymbol .notEqual
  | .greater => .ofSymbol .greater
  | .greaterEqual => .ofSymbol .greaterEqual
  | .less => .ofSymbol .less
  | .lessEqual => .ofSymbol .lessEqual
  | .add => .ofSymbol .plus
  | .subtract => .ofSymbol .minus
  | .multiply => .ofSymbol .star
  | .divide => .ofSymbol .slash
  | .remainder => .ofSymbol .percent

theorem spaced_binaryWord (op : BinaryOp) : Spaced op.spelling (binaryWord op) := by
  intro width last layout words rest behind
  cases op with
  | or => exact .keywordSpace .kwOr behind
  | and => exact .keywordSpace .kwAnd behind
  | _ => exact .symbolSpace _ behind

theorem ofKind?_binaryWord (op : BinaryOp) : BinaryOp.ofKind? (binaryWord op).kind = some op := by
  cases op <;> rfl

theorem kind_binaryWord {kind : Kind} {op : BinaryOp} (isOp : BinaryOp.ofKind? kind = some op) :
    kind = (binaryWord op).kind := by
  unfold BinaryOp.ofKind? at isOp
  split at isOp <;> cases isOp <;> rfl

theorem printable_binary {looseness : Nat} {op : BinaryOp} {left right : Expr Unit}
    (first : Printable levels (.binary (looseness + 1)) head word.kind left)
    (isOp : BinaryOp.ofKind? word.kind = some op) (rank : op.looseness = looseness + 1)
    (second : Printable levels (.binary looseness) words next right) :
    Printable levels (.binary (looseness + 1)) (head ++ word :: words) next
      (.binary left op right ()) := by
  intro level
  obtain ⟨before, printsLeft⟩ := first level
  obtain ⟨after, printsRight⟩ := second level
  have starts : (binaryWord op).kind.endsOperand = false := by cases op <;> rfl
  have plain : (binaryWord op).kind ≠ .symbol .lparen := by cases op <;> simp [binaryWord]
  refine ⟨_, reads_infixed (spaced_binaryWord op) starts printsLeft.reads printsRight.reads,
    fun placed follower replaces => ?_, ?_⟩
  · obtain ⟨placedLeft, placedRight⟩ := Nat.add_eq_zero_iff.mp placed
    exact .binary (printsLeft.derives placedLeft _ (kind_binaryWord isOp ▸ .refl _))
      (ofKind?_binaryWord op) rank (printsRight.derives placedRight follower replaces)
  · have countLeft := printsLeft.parens
    have countRight := printsRight.parens
    simp [plain, Expr.misplaced] at countLeft countRight ⊢
    omega

/-! ## Conditionals -/

section Conditionals

variable {opening middle other lineEnd elseEnd closing : Lexeme} {condition : Expr Unit}

theorem printable_ifLine {thenDo : Stmt Unit}
    (test : Printable levels (.nested false) head (.keyword .kwThen) condition)
    (inner : Printable levels (.short line) words next thenDo) (noElse : next ≠ .keyword .kwElse) :
    Printable levels (.expression line) (opening :: (head ++ middle :: words)) next
      (.ifLine condition thenDo ()) := by
  intro level
  obtain ⟨tested, printsTest⟩ := test level
  obtain ⟨printed, prints⟩ := inner level
  refine ⟨_, reads_ifLine printsTest.reads prints.reads, fun placed after replaces => ?_, ?_⟩
  · obtain ⟨placedTest, placedThen⟩ := Nat.add_eq_zero_iff.mp placed
    exact .ifLine rfl (printsTest.derives placedTest _ (.refl _)) rfl
      (prints.derives placedThen after replaces) (replaces.noElse noElse)
  · have countTest := printsTest.parens
    have count := prints.parens
    simp [Expr.misplaced] at countTest count ⊢
    omega

theorem printable_ifLineElse {thenDo elseDo : Stmt Unit}
    (test : Printable levels (.nested false) head (.keyword .kwThen) condition)
    (inner : Printable levels (.short line) words (.keyword .kwElse) thenDo)
    (innerElse : Printable levels (.short line) elseWords next elseDo) :
    Printable levels (.expression line)
      (opening :: (head ++ middle :: (words ++ other :: elseWords))) next
      (.ifLineElse condition thenDo elseDo ()) := by
  intro level
  obtain ⟨tested, printsTest⟩ := test level
  obtain ⟨printed, prints⟩ := inner level
  obtain ⟨otherwise, printsElse⟩ := innerElse level
  refine ⟨_, reads_ifLineElse printsTest.reads prints.reads printsElse.reads,
    fun placed after replaces => ?_, ?_⟩
  · simp only [Expr.misplaced, Nat.add_eq_zero_iff] at placed
    exact .ifLineElse rfl (printsTest.derives placed.1.1 _ (.refl _)) rfl
      (prints.derives placed.1.2 _ (.refl _)) rfl (printsElse.derives placed.2 after replaces)
  · have countTest := printsTest.parens
    have count := prints.parens
    have countElse := printsElse.parens
    simp [Expr.misplaced] at countTest count countElse ⊢
    omega

theorem printable_ifBlock {thenDo : List (Stmt Unit)}
    (test : Printable levels (.nested false) head .newline condition)
    (inner : Printable levels (.nestedLines .thenBranch) words (.keyword .kwEnd) thenDo) :
    Printable levels (.expression line)
      (opening :: (head ++ lineEnd :: (words ++ [closing]))) next
      (.ifBlock condition thenDo ()) := by
  intro level
  obtain ⟨tested, printsTest⟩ := test level
  obtain ⟨rows, reads, derives, count⟩ := inner (level + 1)
  refine ⟨_, reads_ifBlock printsTest.reads reads, fun placed after _ => ?_, ?_⟩
  · obtain ⟨placedTest, placedThen⟩ := Nat.add_eq_zero_iff.mp placed
    exact .ifBlock rfl (printsTest.derives placedTest _ (.refl _)) rfl (derives placedThen) rfl
  · have countTest := printsTest.parens
    simp [Expr.misplaced] at countTest count ⊢
    omega

theorem printable_ifBlockElse {thenDo elseDo : List (Stmt Unit)}
    (test : Printable levels (.nested false) head .newline condition)
    (inner : Printable levels (.nestedLines .thenBranch) words (.keyword .kwElse) thenDo)
    (innerElse : Printable levels (.nestedLines .elseBranch) elseWords (.keyword .kwEnd) elseDo) :
    Printable levels (.expression line)
      (opening :: (head ++ lineEnd :: (words ++ other :: elseEnd :: (elseWords ++ [closing]))))
      next (.ifBlockElse condition thenDo elseDo ()) := by
  intro level
  obtain ⟨tested, printsTest⟩ := test level
  obtain ⟨rows, reads, derives, count⟩ := inner (level + 1)
  obtain ⟨elseRows, readsElse, derivesElse, countElse⟩ := innerElse (level + 1)
  refine ⟨_, reads_ifBlockElse printsTest.reads reads readsElse, fun placed after _ => ?_, ?_⟩
  · simp only [Expr.misplaced, Nat.add_eq_zero_iff] at placed
    exact .ifBlockElse rfl (printsTest.derives placed.1.1 _ (.refl _)) rfl (derives placed.1.2) rfl
      rfl (derivesElse placed.2) rfl
  · have countTest := printsTest.parens
    simp [Expr.misplaced] at countTest count countElse ⊢
    omega

end Conditionals

end Parlance.Grammar
