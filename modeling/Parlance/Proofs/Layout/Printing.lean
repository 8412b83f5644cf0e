import Parlance.Proofs.Grammar.Derivation
import Parlance.Proofs.Layout.Constructs
import Parlance.Proofs.Layout.Placement

/-!
Contract: what it means that a phrase is printed.

The layout of a phrase's tree is read as a row of words, the printed words. If nothing in the tree
is misplaced, the grammar derives the tree from them, within the levels of the words that the tree
was derived from. The printed words never hold more parentheses than those, and fewer if something is
misplaced: a misplaced assignment to several names must have been written in parentheses, and is
printed without. Owns: these statements for every kind of phrase (`Printable`), the words of names
and literals, and the rows of lists and blocks. Does not own: the rules.
-/

namespace Parlance

def Lexeme.Legible (word : Lexeme) : Prop :=
  word.kind = .newline ∨ ∃ spelling, word.Spelled spelling

namespace Lexeme.Legible

variable {word : Lexeme}

theorem isName (legible : word.Legible) (isName : word.kind = .name) : IsName word.text := by
  rcases legible with isBreak | ⟨spelling, spelled⟩
  · rw [isName] at isBreak
    contradiction
  · cases spelled with
    | word starts continues =>
      refine ⟨?_, isName⟩
      simpa [Text.isWord, starts] using continues
    | number | string | symbol => contradiction

theorem exists_number (legible : word.Legible) (isNumber : word.kind = .number) :
    ∃ sign text, (sign = [] ∨ sign = ['-']) ∧ Numeral text ∧
      word.text = String.ofList (sign ++ text) := by
  rcases legible with isBreak | ⟨spelling, spelled⟩
  · rw [isNumber] at isBreak
    contradiction
  · cases spelled with
    | word => exact absurd isNumber (Kind.ofWord_ne _).1
    | number isSign numeral => exact ⟨_, _, isSign, numeral, rfl⟩
    | string | symbol => contradiction

theorem exists_string (legible : word.Legible) (isString : word.kind = .string) :
    ∃ quote body, (quote = '\x22' ∨ quote = '\x27') ∧ quote ∉ body ∧
      word.text = String.ofList body ∧ word.quote = String.ofList [quote] := by
  rcases legible with isBreak | ⟨spelling, spelled⟩
  · rw [isString] at isBreak
    contradiction
  · cases spelled with
    | word => exact absurd isString (Kind.ofWord_ne _).2.1
    | string isQuote free => exact ⟨_, _, isQuote, free, rfl, rfl⟩
    | number | symbol => contradiction

theorem reads_number (legible : word.Legible) (isNumber : word.kind = .number) :
    Layout.Reads [.word word.text] [⟨.number, word.text, ""⟩] := by
  obtain ⟨sign, text, isSign, numeral, same⟩ := legible.exists_number isNumber
  rw [same]
  intro width last rest starts clear
  exact .number (isSign.imp_right fun sign => ⟨sign, starts⟩) numeral clear .nil

theorem reads_string (legible : word.Legible) (isString : word.kind = .string) :
    Layout.Reads [.quoted word.quote word.text] [⟨.string, word.text, word.quote⟩] := by
  obtain ⟨quote, body, isQuote, free, isText, isMark⟩ := legible.exists_string isString
  rw [isText, isMark]
  exact fun _ _ _ _ _ => .string isQuote free .nil

end Lexeme.Legible

namespace Grammar

open Lexeme Layout

/-! ## Counting and following -/

def parens (words : List Lexeme) : Nat :=
  words.countP (·.kind == .symbol .lparen)

@[simp] theorem parens_nil : parens [] = 0 := rfl

@[simp] theorem parens_cons (word : Lexeme) (words : List Lexeme) :
    parens (word :: words) = parens words + if word.kind = .symbol .lparen then 1 else 0 := by
  simp [parens, List.countP_cons]

@[simp] theorem parens_append (front back : List Lexeme) :
    parens (front ++ back) = parens front + parens back :=
  List.countP_append

/-- A kind that can stand behind a phrase in place of another: a `return` stays without a value, and
no `else` comes to stand behind an `if`. -/
structure Replaces (next after : Kind) : Prop where
  stops : stopsReturn next = true → stopsReturn after = true
  noElse : next ≠ .keyword .kwElse → after ≠ .keyword .kwElse

theorem Replaces.refl (next : Kind) : Replaces next next :=
  ⟨id, id⟩

def closesItem : Kind → Bool
  | .symbol .comma | .symbol .rparen | .symbol .rbracket => true
  | _ => false

/-- Behind an item, a comma or a closing bracket can stand in place of anything. -/
theorem Replaces.ofItem {next after : Kind} (closes : closesItem after = true) :
    Replaces next after := by
  unfold closesItem at closes
  split at closes <;> first | contradiction | exact ⟨fun _ => rfl, fun _ => by simp⟩

/-! ## Printed phrases -/

structure PrintsAs (levels : Nat) (phrase : Phrase) (words : List Lexeme) (next : Kind)
    (tree : phrase.Tree Unit) (layout : Layout) (misplaced : Nat)
    (printed : List Lexeme) : Prop where
  reads : layout.Reads printed
  derives : misplaced = 0 → ∀ after, Replaces next after → Derives levels phrase printed after tree
  parens : parens printed + misplaced ≤ parens words

def Prints (levels : Nat) (phrase : Phrase) (words : List Lexeme) (next : Kind)
    (tree : phrase.Tree Unit) (layout : Layout) (misplaced : Nat) : Prop :=
  ∃ printed, PrintsAs levels phrase words next tree layout misplaced printed

def Part.layout (level : Nat) : (part : Part) → part.Tree Unit → Layout
  | .expression => Expr.layout level
  | .entry => Entry.layout level
  | .param => Param.layout level

def Part.misplaced : (part : Part) → part.Tree Unit → Nat
  | .expression => Expr.misplaced false
  | .entry => Entry.misplaced
  | .param => Param.misplaced

def Part.layouts (level : Nat) : (part : Part) → List (part.Tree Unit) → List Layout
  | .expression => Expr.layouts level
  | .entry => Entry.layouts level
  | .param => Param.layouts level

def Part.misplacedAll : (part : Part) → List (part.Tree Unit) → Nat
  | .expression => Expr.misplacedAll
  | .entry => Entry.misplacedAll
  | .param => Param.misplacedAll

theorem Part.layouts_eq_map (level : Nat) (part : Part) (values : List (part.Tree Unit)) :
    part.layouts level values = values.map (part.layout level) := by
  cases part with
  | expression => exact Expr.layouts_eq_map level values
  | entry => exact Entry.layouts_eq_map level values
  | param => exact Param.layouts_eq_map level values

@[simp] theorem Part.misplacedAll_cons (part : Part) (first : part.Tree Unit)
    (rest : List (part.Tree Unit)) :
    part.misplacedAll (first :: rest) = part.misplaced first + part.misplacedAll rest := by
  cases part <;> rfl

@[simp] theorem Part.misplacedAll_nil (part : Part) : part.misplacedAll [] = 0 := by
  cases part <;> rfl

/-- An item of a list is printed as a row of words, before a comma or a closing bracket. -/
structure ItemPrints (levels level : Nat) (part : Part) (value : part.Tree Unit)
    (row : List Lexeme) : Prop where
  reads : (part.layout level value).Reads row
  derives : part.misplaced value = 0 → ∀ after, closesItem after = true →
    Derives levels (.item part) row after value

/-- A line of a block is printed as a row of words. -/
structure LinePrints (levels level : Nat) (stmt : Stmt Unit) (row : List Lexeme) : Prop where
  reads : (stmt.layout level).Reads row
  derives : stmt.misplaced true = 0 → Derives levels .statement row .newline stmt

/-- What printing means for each kind of phrase, at every level of indentation. -/
def Printable (levels : Nat) : (phrase : Phrase) → List Lexeme → Kind → phrase.Tree Unit → Prop
  | .lines _, words, _, body =>
    ∀ level, ∃ rows, List.Forall₂ (LinePrints levels level) body rows ∧
      parens rows.flatten + Stmt.misplacedAll body ≤ parens words
  | .nestedLines block, words, next, body =>
    ∀ level, ∃ rows, List.Forall₂ Reads (Stmt.layouts level body) rows ∧
      (Stmt.misplacedAll body = 0 →
        Derives levels (.nestedLines block) (lineRows rows) next body) ∧
      parens (lineRows rows) + Stmt.misplacedAll body ≤ parens words
  | .statement, words, next, stmt =>
    ∀ level, Prints levels .statement words next stmt (Stmt.layout level stmt)
      (Stmt.misplaced true stmt)
  | .short line, words, next, stmt =>
    ∀ level, Prints levels (.short line) words next stmt (Stmt.layout level stmt)
      (Stmt.misplaced line stmt)
  | .expression line, words, next, value =>
    ∀ level, Prints levels (.expression line) words next value (Expr.layout level value)
      (Expr.misplaced line value)
  | .nested line, words, next, value =>
    ∀ level, Prints levels (.nested line) words next value (Expr.layout level value)
      (Expr.misplaced line value)
  | .binary looseness, words, next, value =>
    ∀ level, Prints levels (.binary looseness) words next value (Expr.layout level value)
      (Expr.misplaced false value)
  | .prefixed op, words, next, value =>
    ∀ level, Prints levels (.prefixed op) words next value (Expr.layout level value)
      (Expr.misplaced false value)
  | .indexed, words, next, value =>
    ∀ level, Prints levels .indexed words next value (Expr.layout level value)
      (Expr.misplaced false value)
  | .members, words, next, value =>
    ∀ level, Prints levels .members words next value (Expr.layout level value)
      (Expr.misplaced false value)
  | .primary, words, next, value =>
    ∀ level, Prints levels .primary words next value (Expr.layout level value)
      (Expr.misplaced false value)
  | .item part, words, next, value =>
    ∀ level, Prints levels (.item part) words next value (part.layout level value)
      (part.misplaced value)
  | .items part _, words, _, list =>
    ∀ level, ∃ rows, List.Forall₂ (ItemPrints levels level part) list.1 rows ∧
      parens rows.flatten + part.misplacedAll list.1 ≤ parens words

/-- A rule that leaves the words as they are leaves what is printed as it is. -/
theorem Prints.lift {levels levels' : Nat} {phrase phrase' : Phrase} {words : List Lexeme}
    {next : Kind} {tree : phrase.Tree Unit} {tree' : phrase'.Tree Unit} {layout : Layout}
    {misplaced : Nat} (prints : Prints levels phrase words next tree layout misplaced)
    (rule : ∀ printed after, Derives levels phrase printed after tree →
      Derives levels' phrase' printed after tree') :
    Prints levels' phrase' words next tree' layout misplaced := by
  obtain ⟨printed, prints⟩ := prints
  exact ⟨printed, prints.reads, fun placed after replaces =>
    rule printed after (prints.derives placed after replaces), prints.parens⟩

/-! ## Rows of names -/

theorem Joined.areNames {joints : List Kind} {words : List Lexeme} {names : List String}
    (joined : Joined joints words names) (legible : ∀ word ∈ words, word.Legible) :
    names ≠ [] ∧ ∀ name ∈ names, IsName name := by
  induction joined with
  | one isName => exact ⟨by simp, by simpa using (legible _ (by simp)).isName isName⟩
  | more isName isJoint tail ih =>
    obtain ⟨first, -, others⟩ := by simpa using legible
    exact ⟨by simp, by simpa using ⟨first.isName isName, (ih others).2⟩⟩

theorem joined_commaRow {names : List String} (filled : names ≠ []) :
    Joined [.symbol .comma] (commaRow (names.map fun name => [.ofName name])) names := by
  induction names with
  | nil => contradiction
  | cons first others ih =>
    cases others with
    | nil => exact .one rfl
    | cons second others => exact .more rfl (by simp) (ih (by simp))

theorem joined_pathRow {joints : List Kind} {names : List String}
    (isJoint : joints.contains (.symbol .doubleColon) = true) (filled : names ≠ []) :
    Joined joints (pathRow names) names := by
  induction names with
  | nil => contradiction
  | cons first others ih =>
    cases others with
    | nil => exact .one rfl
    | cons second others => exact .more rfl isJoint (ih (by simp))

theorem parens_pathRow (names : List String) : parens (pathRow names) = 0 := by
  fun_induction pathRow names with
  | case1 => rfl
  | case2 only => rfl
  | case3 first rest notEmpty ih => simp [ih]

@[simp] theorem parens_commaRow (rows : List (List Lexeme)) :
    parens (commaRow rows) = parens rows.flatten := by
  fun_induction commaRow rows with
  | case1 => rfl
  | case2 only => simp
  | case3 first rest notEmpty ih => simp [ih]

theorem parens_names (names : List String) :
    parens (names.map fun name => [ofName name]).flatten = 0 := by
  induction names with
  | nil => rfl
  | cons first others ih => simpa using ih

/-! ## Rows of items -/

section Items

variable {levels level : Nat} {part : Part} {bracket : Bracket} {next : Kind}
variable {values : List (part.Tree Unit)} {rows : List (List Lexeme)}

theorem reads_items (each : List.Forall₂ (ItemPrints levels level part) values rows) :
    List.Forall₂ Reads (part.layouts level values) rows := by
  rw [Part.layouts_eq_map, List.forall₂_map_left_iff]
  exact each.imp fun _ _ prints => prints.reads

theorem closesItem_close (bracket : Bracket) : closesItem (.symbol bracket.close) = true := by
  cases bracket <;> rfl

theorem derives_items (each : List.Forall₂ (ItemPrints levels level part) values rows)
    (placed : part.misplacedAll values = 0) :
    Derives levels (.items part bracket) (commaRow rows ++ [.ofSymbol bracket.close]) next
      (values, decide (2 ≤ values.length)) := by
  induction each with
  | nil =>
    have nothing : Derives levels (.items part bracket) ([] ++ [.ofSymbol bracket.close]) next
        ([], false) := .noItem .nil rfl
    exact nothing
  | cons first others ih =>
    rename_i value row values rows
    obtain ⟨placedFirst, placedOthers⟩ : part.misplaced value = 0 ∧
        part.misplacedAll values = 0 := by simpa using placed
    cases others with
    | nil =>
      have item : Derives levels (.items part bracket)
          ([] ++ (row ++ ([] ++ [.ofSymbol bracket.close]))) next ([value], false) :=
        .lastItem .nil (first.derives placedFirst _ (closesItem_close bracket)) .nil rfl
      exact item
    | cons second others =>
      have items : Derives levels (.items part bracket)
          ([] ++ (row ++ ([] ++ .ofSymbol .comma :: _))) next (value :: _, true) :=
        .moreItems .nil (first.derives placedFirst _ rfl) .nil rfl
          (ih placedOthers)
      simpa [commaRow] using items

theorem derives_onlyItem {value : part.Tree Unit} {row : List Lexeme}
    (prints : ItemPrints levels level part value row) (placed : part.misplaced value = 0) :
    Derives levels (.items part bracket)
      (row ++ [.ofSymbol .comma] ++ [.ofSymbol bracket.close]) next ([value], true) := by
  have nothing : Derives levels (.items part bracket) ([] ++ [.ofSymbol bracket.close]) next
      ([], false) := .noItem .nil rfl
  have item : Derives levels (.items part bracket)
      ([] ++ (row ++ ([] ++ .ofSymbol .comma :: ([] ++ [.ofSymbol bracket.close])))) next
      ([value], true) :=
    .moreItems .nil (prints.derives placed _ rfl) .nil rfl nothing
  rw [List.append_assoc]
  exact item

theorem Printable.items {words : List Lexeme} {list : List (part.Tree Unit) × Bool}
    (printable : Printable levels (.items part bracket) words next list) (level : Nat) :
    ∃ rows, List.Forall₂ Reads (part.layouts level list.1) rows ∧
      (part.misplacedAll list.1 = 0 → ∀ after, Derives levels (.items part bracket)
        (commaRow rows ++ [.ofSymbol bracket.close]) after
          (list.1, decide (2 ≤ list.1.length))) ∧
      parens (commaRow rows) + part.misplacedAll list.1 ≤ parens words := by
  obtain ⟨rows, each, count⟩ := printable level
  exact ⟨rows, reads_items each, fun placed _ => derives_items each placed, by simpa using count⟩

theorem Printable.onlyItem {words : List Lexeme} {value : part.Tree Unit} {divided : Bool}
    (printable : Printable levels (.items part bracket) words next ([value], divided))
    (level : Nat) :
    ∃ row, (part.layout level value).Reads row ∧
      (part.misplaced value = 0 → ∀ after, Derives levels (.items part bracket)
        (row ++ [.ofSymbol .comma] ++ [.ofSymbol bracket.close]) after ([value], true)) ∧
      parens row + part.misplaced value ≤ parens words := by
  obtain ⟨rows, each, count⟩ := printable level
  cases each with
  | cons prints others =>
    cases others
    exact ⟨_, prints.reads, fun placed _ => derives_onlyItem prints placed, by simpa using count⟩

end Items

/-! ## Lines of blocks -/

section Lines

variable {levels level : Nat} {body : List (Stmt Unit)} {rows : List (List Lexeme)}

theorem reads_lines (each : List.Forall₂ (LinePrints levels level) body rows) :
    List.Forall₂ Reads (Stmt.layouts level body) rows := by
  rw [Stmt.layouts_eq_map, List.forall₂_map_left_iff]
  exact each.imp fun _ _ prints => prints.reads

theorem derives_lines {block : Block} {next : Kind}
    (each : List.Forall₂ (LinePrints levels level) body rows) (placed : Stmt.misplacedAll body = 0)
    (ends : block.endsAt next = true) :
    Derives levels (.lines block) (lineRows rows) next body := by
  induction each with
  | nil => exact .noLine ends
  | cons first others ih =>
    rename_i stmt row body rows
    obtain ⟨placedFirst, placedOthers⟩ :
        stmt.misplaced true = 0 ∧ Stmt.misplacedAll body = 0 := by
      simpa [Stmt.misplacedAll] using placed
    have whole : Derives levels (.lines block) (row ++ .lineBreak :: lineRows rows) next
        (stmt :: body) := .line (first.derives placedFirst) rfl (ih placedOthers)
    simpa [lineRows] using whole

@[simp] theorem parens_lineRows (rows : List (List Lexeme)) :
    parens (lineRows rows) = parens rows.flatten := by
  induction rows with
  | nil => rfl
  | cons first others ih =>
    simpa [lineRows] using ih

end Lines

end Grammar

end Parlance
