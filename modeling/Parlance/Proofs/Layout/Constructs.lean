import Mathlib.Data.List.Forall2
import Parlance.Proofs.Layout.Scanning

/-!
Contract: the words that the layouts of constructs are read as.

One law for each construct: if the layouts of the parts are read as their words, the layout of the
construct is read as the words of its parts with the construct's own words between them. The rows of
words are those that the grammar has for the construct. Does not own: which trees the rows form.
-/

namespace Parlance.Layout

open Lexeme

variable {width : Int} {last : Option Kind} {rest : List Char}
variable {words head after : List Lexeme} {rows : List (List Lexeme)}
variable {condition back inner target operand : Layout} {level : Nat} {name : String}
variable {params : List String}

theorem Reads.andThen {front : Layout} {before : List Lexeme} (first : front.Reads before)
    (starts : last.any Kind.endsOperand = false) (clear : Clear (back.chars width ++ rest))
    (second : back.Scans width (lastKind last before) after rest) :
    (front ++ back).Scans width last (before ++ after) rest :=
  .append (first width last _ starts clear) second

theorem clear_symbol (mark : Symbol) (back : Layout) (notPoint : mark ≠ .dot) :
    Clear (chars width (.word mark.spelling :: back) ++ rest) := by
  rw [chars_cons, List.append_assoc]
  exact .symbol _ notPoint

/-! ## Rows of layouts -/

def commaRow : List (List Lexeme) → List Lexeme
  | [] => []
  | [only] => only
  | first :: rest => first ++ (.ofSymbol .comma :: commaRow rest)

theorem reads_commas {layouts : List Layout} (each : List.Forall₂ Reads layouts rows) :
    (commas layouts).Reads (commaRow rows) := by
  induction each with
  | nil => exact fun _ _ _ _ _ => .nil
  | cons first others ih =>
    cases others with
    | nil => exact first
    | cons second others =>
      intro width last rest starts clear
      refine first.andThen starts (clear_symbol .comma _ (by decide)) ?_
      exact .symbolSpace .comma (ih width _ rest rfl clear)

def lineRows (rows : List (List Lexeme)) : List Lexeme :=
  rows.flatMap (· ++ [.lineBreak])

theorem scans_lines {outer : Nat} {layouts : List Layout} (each : List.Forall₂ Reads layouts rows)
    (behind : back.Scans width (some .newline) after rest) :
    (lines level layouts ++ .line outer :: back).Scans width last
      (.lineBreak :: (lineRows rows ++ after)) rest := by
  induction each generalizing last with
  | nil => exact .line behind
  | cons first others ih =>
    rename_i layout words layouts rows
    have whole : Scans width last
        (.line level :: (layout ++ (lines level layouts ++ .line outer :: back)))
        (.lineBreak :: (words ++ (.lineBreak :: (lineRows rows ++ after)))) rest := by
      refine .line (first.andThen rfl ?_ ih)
      cases layouts <;> exact .feed _
    simpa [lines, lineRows] using whole

/-! ## Names -/

theorem reads_name (isName : IsName name) : Reads [.word name] [.ofName name] :=
  fun _ _ _ _ clear => .name isName clear .nil

theorem reads_names {names : List String} (areNames : ∀ name ∈ names, IsName name) :
    (Layout.names names).Reads (commaRow (names.map fun name => [.ofName name])) := by
  refine reads_commas ?_
  rw [List.forall₂_map_left_iff, List.forall₂_map_right_iff, List.forall₂_same]
  exact fun name member => reads_name (areNames name member)

def pathRow : List String → List Lexeme
  | [] => []
  | [only] => [.ofName only]
  | first :: rest => .ofName first :: .ofSymbol .doubleColon :: pathRow rest

theorem reads_path {names : List String} (areNames : ∀ name ∈ names, IsName name) :
    (path names).Reads (pathRow names) := by
  induction names with
  | nil => exact fun _ _ _ _ _ => .nil
  | cons first others ih =>
    have isName := areNames first (by simp)
    cases others with
    | nil => exact reads_name isName
    | cons second others =>
      intro width last rest starts clear
      refine .name isName (clear_symbol .doubleColon _ (by decide)) ?_
      refine .tight .doubleColon rfl ?_
      exact ih (fun name member => areNames name (by simp [member]))
        width _ rest rfl clear

/-! ## Brackets -/

/-- What stands in parentheses may follow anything and be followed by anything. -/
theorem scans_parenthesized (reads : inner.Reads words) :
    (parenthesized inner).Scans width last
      (.ofSymbol .lparen :: (words ++ [.ofSymbol .rparen])) rest := by
  refine .tight .lparen rfl ?_
  refine reads.andThen rfl (clear_symbol .rparen _ (by decide)) ?_
  exact .tight .rparen rfl .nil

theorem scans_bracketed (reads : inner.Reads words) :
    (bracketed inner).Scans width last
      (.ofSymbol .lbracket :: (words ++ [.ofSymbol .rbracket])) rest := by
  refine .tight .lbracket rfl ?_
  refine reads.andThen rfl (clear_symbol .rbracket _ (by decide)) ?_
  exact .tight .rbracket rfl .nil

theorem reads_onlyItem (reads : inner.Reads words) :
    Reads (inner ++ [.word ","]) (words ++ [.ofSymbol .comma]) :=
  fun _ _ _ starts _ =>
    reads.andThen starts (clear_symbol .comma _ (by decide)) (.tight .comma rfl .nil)

theorem reads_emptyDictionary :
    (dictionary []).Reads [.ofSymbol .lbracket, .ofSymbol .colon, .ofSymbol .rbracket] := by
  intro width last rest starts clear
  refine .tight .lbracket rfl (.symbol .colon ?_ (.tight .rbracket rfl .nil))
  intro c isHead
  obtain rfl : ']' = c := by simpa [Item.chars] using isHead
  rfl

theorem reads_entry {key : String} {value : Layout} (isName : IsName key)
    (reads : value.Reads words) :
    (entry key value).Reads (.ofName key :: .ofSymbol .colon :: words) := by
  intro width last rest starts clear
  refine .name isName (clear_symbol .colon _ (by decide)) ?_
  exact .symbolSpace .colon (reads width _ rest rfl clear)

/-! ## Operators -/

theorem reads_access {member : String} (reads : target.Reads words) (isName : IsName member) :
    (access target member).Reads (words ++ [.ofSymbol .dot, .ofName member]) := by
  intro width last rest starts clear
  refine reads.andThen starts ?_ (.tight .dot rfl (.name isName clear .nil))
  obtain ⟨first, more, spelling, isStart⟩ := isName.starts
  rw [chars_cons, chars_cons, chars_nil, List.append_nil, Item.chars, Item.chars, spelling]
  exact .point _ isStart

theorem reads_call {args : List Lexeme} (reads : target.Reads words) (inside : inner.Reads args) :
    Reads (target ++ parenthesized inner)
      (words ++ .ofSymbol .lparen :: (args ++ [.ofSymbol .rparen])) :=
  fun _ _ _ starts _ =>
    reads.andThen starts (clear_symbol .lparen _ (by decide)) (scans_parenthesized inside)

theorem reads_index {place : Layout} {inner : List Lexeme} (reads : target.Reads words)
    (inside : place.Reads inner) :
    (index target place).Reads
      (words ++ .ofSymbol .lbracket :: (inner ++ [.ofSymbol .rbracket])) :=
  fun _ _ _ starts _ =>
    reads.andThen starts (clear_symbol .lbracket _ (by decide)) (scans_bracketed inside)

theorem reads_not (reads : operand.Reads words) :
    (unary .not operand).Reads (.ofKeyword .kwNot :: words) :=
  fun width _ rest _ clear => .keywordSpace .kwNot (reads width _ rest rfl clear)

/-- A minus sign before a layout that does not begin with a digit, nor with a character that makes
another symbol of it. -/
theorem apart_minus {first : Char} (isFirst : operand.head? = some first)
    (notDigit : first.isDigit = false) (noSymbol : first ≠ '=' ∧ first ≠ '>') :
    ∀ c ∈ (operand.chars width ++ rest).head?, Symbol.apart .minus c = true := by
  intro c isHead
  rw [List.head?_append, head?_chars, isFirst] at isHead
  obtain rfl : first = c := by simpa using isHead
  have alone : Symbol.ofTwo? '-' first = none := by
    unfold Symbol.ofTwo?
    split <;> simp_all
  change (Symbol.ofTwo? '-' first == none && !first.isDigit) = true
  rw [alone, notDigit]
  rfl

theorem reads_minus {first : Char} (isFirst : operand.head? = some first)
    (noSymbol : first ≠ '=' ∧ first ≠ '>') (reads : operand.Reads words) :
    (unary .minus operand).Reads (.ofSymbol .minus :: words) := by
  intro width last rest starts clear
  have behind := reads width (some (.symbol .minus)) rest rfl clear
  have starting : operand.startsWithDigit = first.isDigit := by rw [startsWithDigit, isFirst]
  simp only [unary, starting]
  cases isDigit : first.isDigit with
  | true => exact .symbolSpace .minus behind
  | false => exact .symbol .minus (apart_minus isFirst isDigit noSymbol) behind

/-- A text that is read as a word before a space, whatever stands before it. -/
def Spaced (text : String) (word : Lexeme) : Prop :=
  ∀ width last layout words rest, Scans width (some word.kind) layout words rest →
    Scans width last (.word text :: .space :: layout) (word :: words) rest

theorem reads_infixed {left right : Layout} {op : String} {word : Lexeme} {before : List Lexeme}
    (spaced : Spaced op word) (starts : word.kind.endsOperand = false) (first : left.Reads before)
    (second : right.Reads after) :
    (infixed left op right).Reads (before ++ word :: after) := by
  intro width last rest startsLeft clear
  refine first.andThen startsLeft (.space _) (.space (spaced _ _ _ _ _ ?_))
  exact second width _ rest starts clear

/-! ## Blocks and one-line forms -/

theorem reads_block (level : Nat) {header : Layout} {body : List Layout} (reads : header.Reads head)
    (each : List.Forall₂ Reads body rows) :
    (block level header body).Reads
      (head ++ .lineBreak :: (lineRows rows ++ [.ofKeyword .kwEnd])) := by
  intro width last rest starts clear
  refine reads.andThen starts ?_ (scans_lines each (.keyword .kwEnd clear .nil))
  cases body <;> exact .feed _

theorem scans_closureHead (areNames : ∀ name ∈ params, IsName name)
    (behind : back.Scans width (some (.symbol .arrow)) after rest) :
    (closureHead params ++ back).Scans width last
      (.ofKeyword .kwFn :: (commaRow (params.map fun name => [.ofName name]) ++
        .ofSymbol .arrow :: after)) rest := by
  have inner : Scans width (some (.keyword .kwFn))
      (Layout.names params ++ (.space :: .word "->" :: .space :: back)) _ rest :=
    (reads_names areNames).andThen rfl (.space _) (.space (.symbolSpace .arrow behind))
  simp only [closureHead, List.cons_append, List.append_assoc, List.nil_append]
  exact .keywordSpace .kwFn inner

theorem reads_closureLine {body : Layout} (areNames : ∀ name ∈ params, IsName name)
    (reads : body.Reads words) :
    (closureLine params body).Reads
      (.ofKeyword .kwFn :: (commaRow (params.map fun name => [.ofName name]) ++
        .ofSymbol .arrow :: (words ++ [.ofKeyword .kwEnd]))) :=
  fun _ _ _ _ clear =>
    scans_closureHead areNames (reads.andThen rfl (.space _) (.space (.keyword .kwEnd clear .nil)))

theorem reads_closureBlock {body : List Layout} (areNames : ∀ name ∈ params, IsName name)
    (each : List.Forall₂ Reads body rows) :
    (closureBlock level params body).Reads
      (.ofKeyword .kwFn :: (commaRow (params.map fun name => [.ofName name]) ++
        .ofSymbol .arrow :: .ofKeyword .kwDo ::
          .lineBreak :: (lineRows rows ++ [.ofKeyword .kwEnd]))) := by
  have header : Reads (closureHead params ++ [.word "do"]) _ := fun _ _ _ _ clear =>
    scans_closureHead areNames (.keyword .kwDo clear .nil)
  have whole := reads_block level header each
  simp only [List.cons_append, List.append_assoc, List.nil_append] at whole
  exact whole

theorem scans_ifHead (reads : condition.Reads head) (clear : Clear (back.chars width ++ rest))
    (behind : back.Scans width (lastKind (some (.keyword .kwIf)) head) after rest) :
    Scans width last (.word "if" :: .space :: (condition ++ back))
      (.ofKeyword .kwIf :: (head ++ after)) rest :=
  .keywordSpace .kwIf (reads.andThen rfl clear behind)

theorem reads_ifLine {thenDo : Layout} (test : condition.Reads head) (reads : thenDo.Reads words) :
    (ifLine condition thenDo).Reads
      (.ofKeyword .kwIf :: (head ++ .ofKeyword .kwThen :: words)) := by
  intro width last rest starts clear
  change Scans width last
    (.word "if" :: .space :: (condition ++ .space :: .word "then" :: .space :: thenDo)) _ rest
  exact scans_ifHead test (.space _)
    (.space (.keywordSpace .kwThen (reads width _ rest rfl clear)))

theorem reads_ifLineElse {thenDo elseDo : Layout} {elseWords : List Lexeme}
    (test : condition.Reads head) (reads : thenDo.Reads words)
    (readsElse : elseDo.Reads elseWords) :
    (ifLineElse condition thenDo elseDo).Reads
      (.ofKeyword .kwIf :: (head ++ .ofKeyword .kwThen ::
        (words ++ .ofKeyword .kwElse :: elseWords))) := by
  intro width last rest starts clear
  have whole : Scans width last
      (ifLine condition thenDo ++ .space :: .word "else" :: .space :: elseDo) _ rest :=
    (reads_ifLine test reads).andThen starts (.space _)
      (.space (.keywordSpace .kwElse (readsElse width _ rest rfl clear)))
  simp only [List.cons_append, List.append_assoc] at whole
  exact whole

theorem reads_ifBlock {thenDo : List Layout} (test : condition.Reads head)
    (each : List.Forall₂ Reads thenDo rows) :
    (ifBlock level condition thenDo).Reads
      (.ofKeyword .kwIf :: (head ++ .lineBreak :: (lineRows rows ++ [.ofKeyword .kwEnd]))) := by
  have header : Reads (.word "if" :: .space :: condition) (.ofKeyword .kwIf :: head) :=
    fun width _ rest _ clear => .keywordSpace .kwIf (test width _ rest rfl clear)
  exact reads_block level header each

theorem reads_ifBlockElse {thenDo elseDo : List Layout} {elseRows : List (List Lexeme)}
    (test : condition.Reads head) (each : List.Forall₂ Reads thenDo rows)
    (eachElse : List.Forall₂ Reads elseDo elseRows) :
    (ifBlockElse level condition thenDo elseDo).Reads
      (.ofKeyword .kwIf :: (head ++ .lineBreak :: (lineRows rows ++
        .ofKeyword .kwElse :: .lineBreak :: (lineRows elseRows ++ [.ofKeyword .kwEnd])))) := by
  have header : Reads (.word "if" :: .space :: (condition ++
      (lines (level + 1) thenDo ++ .line level :: [.word "else"])))
      (.ofKeyword .kwIf :: (head ++ .lineBreak :: (lineRows rows ++ [.ofKeyword .kwElse]))) := by
    intro width last rest starts clear
    refine scans_ifHead test ?_ (scans_lines each (.keyword .kwElse clear .nil))
    cases thenDo <;> exact .feed _
  have whole := reads_block level header eachElse
  simp only [List.cons_append, List.append_assoc, List.nil_append] at whole
  exact whole

/-! ## Statements and their headers -/

theorem reads_classHead (isName : IsName name) :
    (classHead name).Reads [.ofKeyword .kwClass, .ofName name] :=
  fun _ _ _ _ clear => .keywordSpace .kwClass (.name isName clear .nil)

theorem reads_classFieldsHead {fields : List Layout} (isName : IsName name)
    (each : List.Forall₂ Reads fields rows) :
    (classFieldsHead name fields).Reads
      (.ofKeyword .kwClass :: .ofName name ::
        .ofSymbol .lparen :: (commaRow rows ++ [.ofSymbol .rparen])) :=
  reads_call (reads_classHead isName) (reads_commas each)

def methodRow (shared : Bool) (name : String) : List Lexeme :=
  if shared then [.ofName "self", .ofSymbol .doubleColon, .ofName name] else [.ofName name]

theorem isName_self : IsName "self" := ⟨by decide, by decide⟩

theorem reads_methodHead (shared : Bool) {params : List Layout} (isName : IsName name)
    (each : List.Forall₂ Reads params rows) :
    (methodHead shared name params).Reads
      (.ofKeyword .kwDef :: (methodRow shared name ++
        .ofSymbol .lparen :: (commaRow rows ++ [.ofSymbol .rparen]))) := by
  have named : Reads (if shared then [.word "self", .word "::", .word name] else [.word name])
      (methodRow shared name) := by
    cases shared with
    | false => exact reads_name isName
    | true =>
      exact fun _ _ _ _ clear => .name isName_self (clear_symbol .doubleColon _ (by decide))
        (.tight .doubleColon rfl (.name isName clear .nil))
  exact fun width _ rest _ clear =>
    .keywordSpace .kwDef (reads_call named (reads_commas each) width _ rest rfl clear)

theorem reads_forHead {bindings : List String} {source : Layout}
    (areNames : ∀ name ∈ bindings, IsName name) (reads : source.Reads words) :
    (forHead bindings source).Reads
      (.ofKeyword .kwFor :: (commaRow (bindings.map fun name => [.ofName name]) ++
        .ofKeyword .kwIn :: words)) :=
  fun width _ rest _ clear => .keywordSpace .kwFor
    ((reads_names areNames).andThen rfl (.space _)
      (.space (.keywordSpace .kwIn (reads width _ rest rfl clear))))

theorem reads_whileHead (reads : condition.Reads words) :
    (whileHead condition).Reads (.ofKeyword .kwWhile :: words) :=
  fun width _ rest _ clear => .keywordSpace .kwWhile (reads width _ rest rfl clear)

theorem reads_returnValue {value : Layout} (reads : value.Reads words) :
    (returnValue value).Reads (.ofKeyword .kwReturn :: words) :=
  fun width _ rest _ clear => .keywordSpace .kwReturn (reads width _ rest rfl clear)

theorem reads_use {modulePath : List String} (areNames : ∀ name ∈ modulePath, IsName name) :
    (use modulePath).Reads (.ofKeyword .kwUse :: pathRow modulePath) :=
  fun width _ rest _ clear =>
    .keywordSpace .kwUse (reads_path areNames width _ rest rfl clear)

end Parlance.Layout
