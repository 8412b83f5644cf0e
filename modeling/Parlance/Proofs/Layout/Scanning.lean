import Parlance.Layout
import Parlance.Proofs.Token.Following

/-!
Contract: which words a layout is read as.

Owns: the relation between a layout and the words that are read from its text (`Layout.Scans`), its
rules for each item of a layout, and layouts that can stand wherever an operand may begin
(`Layout.Reads`). The words are those of the layout's items (`Layout.bare`). Which words an item
gives depends on the word before it, which may end an operand, and on the text behind it, which may
continue it. Does not own: the layouts of constructs.
-/

namespace Parlance

/-! ## Printed words -/

namespace Lexeme

def ofSymbol (mark : Symbol) : Lexeme :=
  ⟨.symbol mark, mark.spelling, ""⟩

def ofWord (text : String) : Lexeme :=
  ⟨Kind.ofWord text, text, ""⟩

def ofKeyword (word : Keyword) : Lexeme :=
  ⟨.keyword word, word.spelling, ""⟩

def ofName (name : String) : Lexeme :=
  ⟨.name, name, ""⟩

def lineBreak : Lexeme :=
  ⟨.newline, "\n", ""⟩

@[simp] theorem ofSymbol_kind (mark : Symbol) : (ofSymbol mark).kind = .symbol mark := rfl

@[simp] theorem ofKeyword_kind (word : Keyword) : (ofKeyword word).kind = .keyword word := rfl

@[simp] theorem ofName_kind (name : String) : (ofName name).kind = .name := rfl

@[simp] theorem ofName_text (name : String) : (ofName name).text = name := rfl

@[simp] theorem lineBreak_kind : lineBreak.kind = .newline := rfl

/-- The item that stands for a word in a layout without spaces. -/
def item (word : Lexeme) : Layout.Item :=
  match word.kind with
  | .string => .quoted word.quote word.text
  | .newline => .line 0
  | _ => .word word.text

theorem item_name {word : Lexeme} (isName : word.kind = .name) : word.item = .word word.text := by
  simp [item, isName]

theorem item_ofWord (text : String) : (ofWord text).item = .word text := by
  obtain ⟨-, notString, notBreak, -⟩ := Kind.ofWord_ne text
  rw [item, ofWord]
  split
  · contradiction
  · contradiction
  · rfl

/-- The kind of the last word of a row, or else of the word before the row. -/
def lastKind (last : Option Kind) (words : List Lexeme) : Option Kind :=
  words.foldl (fun _ word => some word.kind) last

@[simp] theorem lastKind_nil (last : Option Kind) : lastKind last [] = last := rfl

@[simp] theorem lastKind_cons (last : Option Kind) (word : Lexeme) (words : List Lexeme) :
    lastKind last (word :: words) = lastKind (some word.kind) words := rfl

theorem lastKind_append (last : Option Kind) (front back : List Lexeme) :
    lastKind last (front ++ back) = lastKind (lastKind last front) back :=
  List.foldl_append

end Lexeme

def Text.isWord (text : String) : Bool :=
  match text.toList with
  | [] => false
  | first :: more => isNameStart first && more.all isNameContinue

theorem Keyword.isWord_spelling (word : Keyword) : Text.isWord word.spelling = true := by
  cases word <;> decide

theorem Lexeme.ofWord_spelling (word : Keyword) : ofWord word.spelling = ofKeyword word := by
  cases word <;> rfl

/-- A text that is spelled like a name and not reserved. -/
structure IsName (text : String) : Prop where
  isWord : Text.isWord text = true
  notReserved : Kind.ofWord text = .name

theorem IsName.ofWord_eq {name : String} (isName : IsName name) :
    Lexeme.ofWord name = .ofName name := by
  rw [Lexeme.ofWord, isName.notReserved, Lexeme.ofName]

theorem IsName.starts {name : String} (isName : IsName name) :
    ∃ first more, name.toList = first :: more ∧ Text.isNameStart first = true := by
  have isWord := isName.isWord
  unfold Text.isWord at isWord
  cases spelling : name.toList with
  | nil => simp [spelling] at isWord
  | cons first more =>
    rw [spelling, Bool.and_eq_true] at isWord
    exact ⟨first, more, rfl, isWord.1⟩

/-! ## Scanning -/

namespace Reading

def precede (tokens : List Token) (reading : Reading) : Reading :=
  tokens.foldr cons reading

@[simp] theorem precede_tokens (tokens : List Token) (reading : Reading) :
    (reading.precede tokens).tokens = tokens ++ reading.tokens := by
  induction tokens with
  | nil => rfl
  | cons token tokens ih => exact congrArg (token :: ·) ih

@[simp] theorem precede_ending (tokens : List Token) (reading : Reading) :
    (reading.precede tokens).ending = reading.ending := by
  induction tokens with
  | nil => rfl
  | cons token tokens ih => exact ih

end Reading

namespace Layout

@[simp] theorem chars_nil (width : Int) : chars width [] = [] := rfl

@[simp] theorem chars_cons (width : Int) (item : Item) (layout : Layout) :
    chars width (item :: layout) = item.chars width ++ chars width layout := rfl

@[simp] theorem chars_append (width : Int) (front back : Layout) :
    chars width (front ++ back) = chars width front ++ chars width back :=
  List.flatMap_append

theorem head?_chars (width : Int) (layout : Layout) :
    (layout.chars width).head? = layout.head? := by
  induction layout with
  | nil => rfl
  | cons item layout ih =>
    have same : (item.chars width).head? = (item.chars 0).head? := by
      cases item <;> rfl
    rw [chars_cons, List.head?_append, ih, same, head?]
    cases item.chars 0 <;> rfl

/-- An item without what is between the words: spaces vanish, and lines forget their level. -/
def Item.bare? : Item → Option Item
  | .space => none
  | .line _ => some (.line 0)
  | item => some item

def bare (layout : Layout) : List Item :=
  layout.filterMap Item.bare?

@[simp] theorem bare_nil : bare [] = [] := rfl

@[simp] theorem bare_word (text : String) (layout : Layout) :
    bare (.word text :: layout) = .word text :: bare layout := rfl

@[simp] theorem bare_quoted (quote text : String) (layout : Layout) :
    bare (.quoted quote text :: layout) = .quoted quote text :: bare layout := rfl

@[simp] theorem bare_space (layout : Layout) : bare (.space :: layout) = bare layout := rfl

@[simp] theorem bare_line (level : Nat) (layout : Layout) :
    bare (.line level :: layout) = .line 0 :: bare layout := rfl

@[simp] theorem bare_append (front back : Layout) :
    bare (front ++ back) = bare front ++ bare back :=
  List.filterMap_append

/-- Behind a token of the kind `last` and before `rest`, the text of a layout is read as the words,
which are those that its items stand for. -/
structure Scans (width : Int) (last : Option Kind) (layout : Layout) (words : List Lexeme)
    (rest : List Char) : Prop where
  items : words.map Lexeme.item = layout.bare
  reads : ∀ here, ∃ tokens there, tokens.map Token.lexeme = words ∧
    Reading.readOn last here 0 (layout.chars width ++ rest) =
      (Reading.readOn (Lexeme.lastKind last words) there 0 rest).precede tokens

namespace Scans

variable {width : Int} {last : Option Kind} {layout : Layout} {words : List Lexeme}
variable {rest : List Char}

theorem nil : Scans width last [] [] rest :=
  ⟨rfl, fun here => ⟨[], here, rfl, rfl⟩⟩

theorem append {front back : Layout} {before after : List Lexeme}
    (first : Scans width last front before (back.chars width ++ rest))
    (second : Scans width (Lexeme.lastKind last before) back after rest) :
    Scans width last (front ++ back) (before ++ after) rest := by
  refine ⟨by rw [List.map_append, first.items, second.items, bare_append], fun here => ?_⟩
  obtain ⟨tokens, there, rfl, read⟩ := first.reads here
  obtain ⟨others, behind, rfl, readBack⟩ := second.reads there
  refine ⟨tokens ++ others, behind, List.map_append, ?_⟩
  rw [chars_append, List.append_assoc, read, readBack, Lexeme.lastKind_append]
  exact (List.foldr_append).symm

theorem word (item : Item) {found : Lexeme} {first : Char} {more : List Char}
    (isItem : found.item = item) (isWord : item.bare? = some item)
    (spelling : item.chars width = first :: more)
    (read : Piece.read (!last.any Kind.endsOperand) first (more ++ (layout.chars width ++ rest)) =
      .word (first :: more).length found.kind found.text found.quote)
    (behind : Scans width (some found.kind) layout words rest) :
    Scans width last (item :: layout) (found :: words) rest := by
  have items : (found :: words).map Lexeme.item = bare (item :: layout) := by
    rw [List.map_cons, behind.items, isItem, bare, bare, List.filterMap_cons, isWord]
  refine ⟨items, fun here => ?_⟩
  obtain ⟨tokens, there, rfl, readBack⟩ := behind.reads (here.afterAll (first :: more))
  let span := Span.between here (here.afterAll (first :: more))
  refine ⟨⟨found.kind, found.text, found.quote, span⟩ :: tokens, there, rfl, ?_⟩
  rw [chars_cons, spelling, List.append_assoc, Reading.readOn_word read, readBack]
  rfl

theorem spaces (count : Nat) (here : Position) (rest : List Char) :
    ∃ there, Reading.readOn last here 0 (List.replicate count ' ' ++ rest) =
      Reading.readOn last there 0 rest := by
  induction count generalizing here with
  | zero => exact ⟨here, rfl⟩
  | succ count ih => exact ih (here.after ' ')

theorem space (behind : Scans width last layout words rest) :
    Scans width last (.space :: layout) words rest :=
  ⟨behind.items, fun here => behind.reads (here.after ' ')⟩

/-- A line break is read, and the indentation behind it is skipped. -/
theorem line {level : Nat} (behind : Scans width (some .newline) layout words rest) :
    Scans width last (.line level :: layout) (.lineBreak :: words) rest := by
  refine ⟨by rw [List.map_cons, behind.items]; rfl, fun here => ?_⟩
  obtain ⟨inside, skipped⟩ : ∃ there, Reading.readOn (some .newline) (here.after '\n') 0
      (List.replicate (width * level).toNat ' ' ++ (layout.chars width ++ rest)) = _ :=
    spaces (width * level).toNat (here.after '\n') (layout.chars width ++ rest)
  obtain ⟨tokens, there, rfl, read⟩ := behind.reads inside
  refine ⟨⟨.newline, "\n", "", .point here⟩ :: tokens, there, rfl, ?_⟩
  have feeds : Reading.readOn last here 0 (chars width (.line level :: layout) ++ rest) =
      .cons ⟨.newline, "\n", "", .point here⟩
        (Reading.readOn (some .newline) (here.after '\n') 0
          (List.replicate (width * level).toNat ' ' ++ layout.chars width ++ rest)) := rfl
  rw [feeds, List.append_assoc, skipped, read]
  rfl

theorem symbol (mark : Symbol)
    (apart : ∀ c ∈ (layout.chars width ++ rest).head?, mark.apart c = true)
    (behind : Scans width (some (.symbol mark)) layout words rest) :
    Scans width last (.word mark.spelling :: layout) (.ofSymbol mark :: words) rest := by
  obtain ⟨first, more, spelling⟩ : ∃ first more, mark.spelling.toList = first :: more := by
    cases mark <;> exact ⟨_, _, rfl⟩
  exact .word (.word mark.spelling) rfl rfl spelling (Piece.read_symbol spelling apart) behind

theorem tight (mark : Symbol) (isTight : mark.isTight = true)
    (behind : Scans width (some (.symbol mark)) layout words rest) :
    Scans width last (.word mark.spelling :: layout) (.ofSymbol mark :: words) rest :=
  .symbol mark (fun c _ => Symbol.apart_of_isTight isTight c) behind

theorem symbolSpace (mark : Symbol) (behind : Scans width (some (.symbol mark)) layout words rest) :
    Scans width last (.word mark.spelling :: .space :: layout) (.ofSymbol mark :: words) rest := by
  refine .symbol mark (fun c isHead => ?_) (.space behind)
  obtain rfl : ' ' = c := by simpa [Item.chars] using isHead
  exact mark.apart_space

theorem ofWord {text : String} (isWord : Text.isWord text = true)
    (clear : Clear (layout.chars width ++ rest))
    (behind : Scans width (some (Kind.ofWord text)) layout words rest) :
    Scans width last (.word text :: layout) (.ofWord text :: words) rest := by
  unfold Text.isWord at isWord
  cases spelling : text.toList with
  | nil => simp [spelling] at isWord
  | cons first more =>
    simp only [spelling, Bool.and_eq_true, List.all_eq_true] at isWord
    have same : String.ofList (first :: more) = text := by rw [← spelling, String.ofList_toList]
    have read : Piece.read (!last.any Kind.endsOperand) first
        (more ++ (layout.chars width ++ rest)) = _ := Piece.read_word isWord.1 isWord.2 clear
    rw [same] at read
    exact .word (.word text) (Lexeme.item_ofWord text) rfl spelling read behind

theorem keyword (word : Keyword) (clear : Clear (layout.chars width ++ rest))
    (behind : Scans width (some (.keyword word)) layout words rest) :
    Scans width last (.word word.spelling :: layout) (.ofKeyword word :: words) rest := by
  have same := Lexeme.ofWord_spelling word
  rw [← same]
  refine .ofWord word.isWord_spelling clear ?_
  rw [show Kind.ofWord word.spelling = .keyword word from congrArg Lexeme.kind same]
  exact behind

theorem keywordSpace (word : Keyword)
    (behind : Scans width (some (.keyword word)) layout words rest) :
    Scans width last (.word word.spelling :: .space :: layout) (.ofKeyword word :: words) rest :=
  .keyword word (.space _) (.space behind)

theorem name {name : String} (isName : IsName name) (clear : Clear (layout.chars width ++ rest))
    (behind : Scans width (some .name) layout words rest) :
    Scans width last (.word name :: layout) (.ofName name :: words) rest := by
  rw [← isName.ofWord_eq]
  refine .ofWord isName.isWord clear ?_
  rw [isName.notReserved]
  exact behind

/-- A number, which may begin with a sign only where an operand may begin. -/
theorem number {sign text : List Char}
    (isSign : sign = [] ∨ sign = ['-'] ∧ last.any Kind.endsOperand = false) (numeral : Numeral text)
    (clear : Clear (layout.chars width ++ rest))
    (behind : Scans width (some .number) layout words rest) :
    Scans width last (.word (String.ofList (sign ++ text)) :: layout)
      (⟨.number, String.ofList (sign ++ text), ""⟩ :: words) rest := by
  have filled : sign ++ text ≠ [] := by simp [numeral.plain.1]
  obtain ⟨first, more, spelling⟩ := List.exists_cons_of_ne_nil filled
  have signed : sign = [] ∨ sign = ['-'] ∧ (!last.any Kind.endsOperand) = true := by
    simpa using isSign
  rw [spelling]
  exact .word (.word _) rfl rfl String.toList_ofList
    (Piece.read_number signed numeral spelling clear) behind

theorem string {quote : Char} {body : List Char} (isQuote : quote = '\x22' ∨ quote = '\x27')
    (free : quote ∉ body) (behind : Scans width (some .string) layout words rest) :
    Scans width last (.quoted (String.ofList [quote]) (String.ofList body) :: layout)
      (⟨.string, String.ofList body, String.ofList [quote]⟩ :: words) rest := by
  have spelling : Item.chars width (.quoted (String.ofList [quote]) (String.ofList body)) =
      quote :: (body ++ [quote]) := by simp [Item.chars]
  refine .word (.quoted _ _) rfl rfl spelling ?_ behind
  rw [List.append_assoc, List.singleton_append]
  exact Piece.read_string isQuote free

end Scans

/-- A layout that is read as the words wherever an operand may begin, before anything that does not
continue its last word. -/
def Reads (layout : Layout) (words : List Lexeme) : Prop :=
  ∀ width last rest, last.any Kind.endsOperand = false → Clear rest →
    layout.Scans width last words rest

end Layout

end Parlance
