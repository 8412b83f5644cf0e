import Parlance.Proofs.Layout.Printing

/-!
Contract: the spaces and indentations of a layout follow from its words.

A compositor takes the words of a layout one after the other, without the spaces between them, and
puts the spaces and indentations back. It knows the brackets and blocks that are open and what it
took last, and nothing of the trees that the words form. It refuses words that no layout has: a
line break in brackets, a blank line in a block, a comma at the end of a list unless it is the only
one of a tuple, a point in the path of a module, a declaration that does not begin a line, and
parentheses around the target of an assignment.

Owns: the compositor, and when a row of words is taken as a given layout (`Layout.Copies`). Does not
own: the layouts of constructs.
-/

namespace Parlance

/-! ## Kinds of items -/

def Kind.ofText (text : String) : Kind :=
  if Text.isWord text then .ofWord text
  else
    match Symbol.all.find? (·.spelling == text) with
    | some mark => .symbol mark
    | none => .number

def Layout.Item.kind : Layout.Item → Kind
  | .word text => .ofText text
  | .quoted .. => .string
  | .space | .line _ => .newline

/-- A text that is the word of a kind and does not begin with a digit. -/
structure Spelt (text : String) (kind : Kind) : Prop where
  isKind : Kind.ofText text = kind
  noDigit : Layout.startsWithDigit [.word text] = false

theorem Spelt.symbol (mark : Symbol) : Spelt mark.spelling (.symbol mark) := by
  cases mark <;> exact ⟨by decide, by decide⟩

theorem Spelt.keyword (word : Keyword) : Spelt word.spelling (.keyword word) := by
  cases word <;> exact ⟨by decide, by decide⟩

theorem Kind.ofText_of_isWord {text : String} (isWord : Text.isWord text = true) :
    Kind.ofText text = .ofWord text :=
  if_pos isWord

theorem Spelt.name {text : String} (isName : IsName text) : Spelt text .name := by
  obtain ⟨first, more, spelling, starts⟩ := isName.starts
  refine ⟨(Kind.ofText_of_isWord isName.isWord).trans isName.notReserved, ?_⟩
  have isFirst : Layout.head? [.word text] = some first := by
    rw [Layout.head?, Layout.Item.chars, spelling]
  rw [Layout.startsWithDigit, isFirst]
  exact Text.isDigit_eq_false_of_isNameStart starts

/-- A number is spelled like no name and like no symbol. -/
theorem Kind.ofText_number {sign text : List Char} (isSign : sign = [] ∨ sign = ['-'])
    (numeral : Numeral text) :
    Kind.ofText (String.ofList (sign ++ text)) = .number := by
  obtain ⟨isDigit, -, -, -⟩ := numeral
  rename_i first whole fraction
  have noWord : Text.isWord (String.ofList (sign ++ first :: (whole ++ fraction))) = false := by
    have notStart : Text.isNameStart first = false := by
      cases starts : Text.isNameStart first with
      | false => rfl
      | true => exact absurd isDigit (by simp [Text.isDigit_eq_false_of_isNameStart starts])
    have minus : Text.isNameStart '-' = false := by decide
    rcases isSign with rfl | rfl <;> simp [Text.isWord, notStart, minus]
  have plain : (Symbol.all.all fun mark => mark.spelling.toList.all (!Char.isDigit ·)) = true := by
    decide
  have noSymbol : Symbol.all.find?
      (·.spelling == String.ofList (sign ++ first :: (whole ++ fraction))) = none := by
    rw [List.find?_eq_none]
    intro mark member same
    have digit := List.all_eq_true.mp (List.all_eq_true.mp plain mark member) first
      (by simp [beq_iff_eq.mp same])
    simp [isDigit] at digit
  rw [Kind.ofText, noWord, noSymbol]
  rfl

theorem Kind.ofWord_cases (text : String) :
    Kind.ofWord text = .name ∨ (text, Kind.ofWord text) ∈ Kind.reserved := by
  unfold Kind.ofWord
  cases found : Kind.reserved.lookup text with
  | none => exact .inl rfl
  | some kind =>
    obtain ⟨front, back, same, -⟩ := List.lookup_eq_some_iff.mp found
    exact .inr (by simp [same])

namespace Lexeme.Legible

variable {word : Lexeme}

theorem item_kind (legible : word.Legible) : word.item.kind = word.kind := by
  rcases legible with isBreak | ⟨spelling, spelled⟩
  · simp [item, isBreak, Layout.Item.kind]
  · cases spelled with
    | @word first more starts continues =>
      have isWord : Text.isWord (String.ofList (first :: more)) = true := by
        simpa [Text.isWord, starts] using continues
      exact (congrArg Layout.Item.kind (item_ofWord _)).trans (Kind.ofText_of_isWord isWord)
    | number isSign numeral => exact Kind.ofText_number isSign numeral
    | string => rfl
    | symbol mark => exact (Spelt.symbol mark).isKind

theorem item_eq (legible : word.Legible) {text : String}
    (fixed : ∀ entry ∈ Kind.reserved, entry.2 = word.kind → entry.1 = text)
    (spelling : ∀ mark, word.kind = .symbol mark → mark.spelling = text)
    (notOpen : word.kind ≠ .newline ∧ word.kind ≠ .name ∧ word.kind ≠ .number ∧ word.kind ≠ .string) :
    word.item = .word text := by
  rcases legible with isBreak | ⟨spelling, spelled⟩
  · exact absurd isBreak notOpen.1
  · cases spelled with
    | word =>
      rw [← fixed _ ((Kind.ofWord_cases _).resolve_left notOpen.2.1) rfl]
      exact item_ofWord _
    | number => exact absurd rfl notOpen.2.2.1
    | string => exact absurd rfl notOpen.2.2.2
    | symbol mark => exact congrArg Layout.Item.word (spelling mark rfl)

theorem item_symbol {mark : Symbol} (legible : word.Legible) (isSymbol : word.kind = .symbol mark) :
    word.item = .word mark.spelling := by
  refine legible.item_eq ?_ (fun other same => ?_) (by simp [isSymbol])
  · rw [isSymbol]
    cases mark <;> decide
  · rw [isSymbol, Kind.symbol.injEq] at same
    rw [same]

theorem item_keyword {keyword : Keyword} (legible : word.Legible)
    (isKeyword : word.kind = .keyword keyword) :
    word.item = .word keyword.spelling := by
  refine legible.item_eq ?_ (fun mark same => ?_) (by simp [isKeyword])
  · rw [isKeyword]
    cases keyword <;> decide
  · rw [isKeyword] at same
    contradiction

theorem item_nil (legible : word.Legible) (isNil : word.kind = .nil) : word.item = .word "nil" := by
  refine legible.item_eq ?_ (fun mark same => ?_) (by simp [isNil])
  · rw [isNil]
    decide
  · rw [isNil] at same
    contradiction

theorem item_boolean (legible : word.Legible) (isBoolean : word.kind = .boolean) :
    [word.item] = Layout.boolean (word.text == "true") := by
  have listed : ∀ entry ∈ Kind.reserved, entry.2 = .boolean →
      [.word entry.1] = Layout.boolean (entry.1 == "true") := by decide
  rcases legible with isBreak | ⟨spelling, spelled⟩
  · rw [isBoolean] at isBreak
    contradiction
  · cases spelled with
    | @word first more =>
      have isEntry := (Kind.ofWord_cases (String.ofList (first :: more))).resolve_left
        fun isName => nomatch isName.symm.trans isBoolean
      exact (congrArg (fun item => [item]) (item_ofWord _)).trans (listed _ isEntry isBoolean)
    | number | string | symbol => contradiction

end Lexeme.Legible

/-! ## The compositor -/

namespace Kind

/-- Words that stand directly behind what is before them. -/
def clings : Kind → Bool
  | .symbol .rparen | .symbol .rbracket | .symbol .comma | .symbol .dot | .symbol .doubleColon
  | .symbol .colon => true
  | _ => false

def opensBracket : Kind → Bool
  | .symbol .lparen | .symbol .lbracket => true
  | _ => false

/-- Words that end the lines of a block, and stand one level further out. -/
def outdents : Kind → Bool
  | .keyword .kwEnd | .keyword .kwElse => true
  | _ => false

end Kind

namespace Layout

inductive Frame where
  /-- Parentheses around an operand, with the number of commas that divide its elements. -/
  | group (commas : Nat)
  /-- The parentheses of a declaration. -/
  | params
  /-- Any other brackets. -/
  | plain
  /-- A word that an `end` may belong to, and whether its first line has begun. -/
  | block (isOpen : Bool)
  /-- The lines of a page. -/
  | page
deriving DecidableEq, Repr

inductive Seam where
  /-- Something that the next word stands directly behind, or nothing. -/
  | start
  /-- A line break. -/
  | line
  /-- A minus sign before an operand. -/
  | sign
  /-- A word that a space stands behind. -/
  | apart
  /-- A comma, with the number of commas in the row of names that it ends. -/
  | comma (chain : Nat)
  /-- A name, with the number of commas in the row of names that it ends. -/
  | name (chain : Nat)
  /-- Any other end of an operand. -/
  | operand
  /-- The end of parentheses around an operand. -/
  | grouped
  /-- The end of the parentheses of a declaration. -/
  | signature
  /-- A word that the name of a declaration or of a module stands behind. -/
  | title
  /-- A name of a declaration or of a module. -/
  | path
  /-- A double colon between names of a declaration or of a module. -/
  | joint
deriving DecidableEq, Repr

namespace Seam

/-- The number of commas in the row of names that ends here. -/
def chain : Seam → Nat
  | .comma chain | .name chain => chain
  | _ => 0

def isOperand : Seam → Bool
  | .name _ | .operand | .grouped | .signature => true
  | _ => false

/-- Whether an opening bracket stands directly behind this. -/
def takesBracket : Seam → Bool
  | .name _ | .operand | .grouped | .signature | .path => true
  | _ => false

/-- Whether an expression or a statement may end here. -/
def isSettled : Seam → Bool
  | .name _ | .operand | .grouped | .signature | .path | .apart => true
  | _ => false

/-- Whether an expression may begin here. -/
def isReady : Seam → Bool
  | .start | .line | .sign | .apart | .comma _ => true
  | _ => false

/-- Whether a statement that declares nothing may begin here. -/
def isFresh : Seam → Bool
  | .start | .line | .apart => true
  | _ => false

def beginsLine : Seam → Bool
  | .start | .line => true
  | _ => false

def spaces : Seam → Bool
  | .apart | .comma _ | .title => true
  | _ => false

/-- Whether an item of a list may begin here. -/
def isListed : Seam → Bool
  | .start | .comma _ => true
  | _ => false

def afterName : Seam → Seam
  | .title | .path | .joint => .path
  | .comma chain => .name chain
  | _ => .name 0

def afterComma : Seam → Seam
  | .name chain => .comma (chain + 1)
  | _ => .comma 0

def opened : Seam → Frame
  | .path => .params
  | .name _ | .operand | .grouped | .signature => .plain
  | _ => .group 0

theorem isReady_of_isFresh {seam : Seam} (fresh : seam.isFresh = true) :
    seam.isReady = true ∧ seam.chain = 0 := by
  cases seam <;> first | contradiction | exact ⟨rfl, rfl⟩

theorem isReady_of_isListed {seam : Seam} (listed : seam.isListed = true) :
    seam.isReady = true := by
  cases seam <;> first | contradiction | rfl

theorem isSettled_of_isOperand {seam : Seam} (ends : seam.isOperand = true) :
    seam.isSettled = true := by
  cases seam <;> first | contradiction | rfl

theorem opened_of_isOperand {seam : Seam} (ends : seam.isOperand = true) :
    seam.takesBracket = true ∧ seam.opened = .plain := by
  cases seam <;> first | contradiction | exact ⟨rfl, rfl⟩

end Seam

namespace Frame

/-- A frame after more commas. Only those in parentheses around an operand are counted. -/
def count (commas : Nat) : Frame → Frame
  | .group before => .group (before + commas)
  | frame => frame

/-- A frame without the last commas, which divide names of an assignment and no elements. -/
def discount (commas : Nat) : Frame → Frame
  | .group before => .group (before - commas)
  | frame => frame

/-- Whether a frame is closed by a closing bracket behind the given seam. A comma before it is the
only one of a tuple. -/
def closes : Frame → Seam → Bool
  | frame, .comma _ => frame == .group 1
  | .group _, _ | .params, _ | .plain, _ => true
  | _, _ => false

/-- What the closing bracket of a frame leaves behind. -/
def closed : Frame → Seam
  | .group _ => .grouped
  | .params => .signature
  | _ => .operand

end Frame

def tally (commas : Nat) (frames : List Frame) : List Frame :=
  frames.modifyHead (.count commas)

/-- What is open if the last commas divide names of an assignment. -/
def untally (commas : Nat) (frames : List Frame) : List Frame :=
  frames.modifyHead (.discount commas)

/-- The number of blocks whose lines have begun. -/
def depth : List Frame → Nat
  | [] => 0
  | .block true :: frames => depth frames + 1
  | _ :: frames => depth frames

/-- What is open, innermost first, and what was taken last. -/
structure Compositor where
  frames : List Frame
  seam : Seam
deriving DecidableEq, Repr

namespace Compositor

def assigned (desk : Compositor) : Option Compositor :=
  match desk.seam with
  | .grouped => none
  | .signature => some ⟨desk.frames.tail, .apart⟩
  | seam => some ⟨untally seam.chain desk.frames, .apart⟩

def fed (desk : Compositor) : Option Compositor :=
  match desk.frames with
  | .page :: _ => some { desk with seam := .line }
  | .block _ :: frames =>
    if desk.seam = .line then none else some ⟨.block true :: frames, .line⟩
  | _ => none

def closed (desk : Compositor) : Option Compositor :=
  match desk.frames with
  | frame :: frames => if frame.closes desk.seam then some ⟨frames, frame.closed⟩ else none
  | [] => none

def next (desk : Compositor) (kind : Kind) : Option Compositor :=
  match kind with
  | .name => some { desk with seam := desk.seam.afterName }
  | .number | .string | .boolean | .nil => some { desk with seam := .operand }
  | .symbol .lparen => some ⟨desk.seam.opened :: desk.frames, .start⟩
  | .symbol .lbracket => some ⟨.plain :: desk.frames, .start⟩
  | .symbol .rparen | .symbol .rbracket => desk.closed
  | .symbol .comma => some ⟨tally 1 desk.frames, desk.seam.afterComma⟩
  | .symbol .dot => if desk.seam = .path then none else some { desk with seam := .start }
  | .symbol .doubleColon =>
    some { desk with seam := if desk.seam = .path then .joint else .start }
  | .symbol .minus => some { desk with seam := if desk.seam.isOperand then .apart else .sign }
  | .symbol .assign | .symbol .plusAssign | .symbol .minusAssign | .symbol .starAssign
  | .symbol .slashAssign => desk.assigned
  | .keyword .kwFn | .keyword .kwIf | .keyword .kwFor | .keyword .kwWhile =>
    some ⟨.block false :: desk.frames, .apart⟩
  | .keyword .kwClass | .keyword .kwDef =>
    if desk.seam.beginsLine then some ⟨.block false :: desk.frames, .title⟩ else none
  | .keyword .kwUse => some { desk with seam := .title }
  | .keyword .kwThen => some ⟨desk.frames.tail, .apart⟩
  | .keyword .kwEnd => some ⟨desk.frames.tail, .operand⟩
  | .symbol _ | .keyword _ => some { desk with seam := .apart }
  | .newline => desk.fed
  | .endOfInput => none

/-- What stands before a word of the given kind. It matters whether a digit begins it. -/
def gap (desk : Compositor) (kind : Kind) (digit : Bool) : Layout :=
  if kind.clings || kind.opensBracket && desk.seam.takesBracket then []
  else
    match desk.seam with
    | .start | .joint => []
    | .line => [.line (depth desk.frames - if kind.outdents then 1 else 0)]
    | .sign => if digit then [.space] else []
    | _ => [.space]

/-- What is laid out when an item is taken. A line is laid out with the word that begins it. -/
def put (desk : Compositor) : Item → Layout
  | .line _ => []
  | item => desk.gap item.kind (startsWithDigit [item]) ++ [item]

def run (desk : Compositor) : List Item → Option (Layout × Compositor)
  | [] => some ([], desk)
  | item :: items =>
    (desk.next item.kind).bind fun after =>
      (after.run items).map fun (out, last) => (desk.put item ++ out, last)

theorem run_append (desk : Compositor) (front back : List Item) :
    desk.run (front ++ back) = (desk.run front).bind fun (out, middle) =>
      (middle.run back).map fun (more, last) => (out ++ more, last) := by
  induction front generalizing desk with
  | nil => simp [run]
  | cons item front ih =>
    cases step : desk.next item.kind with
    | none => simp [run, step]
    | some after =>
      simp only [List.cons_append, run, step, Option.bind_some, ih]
      cases after.run front <;> simp [Function.comp_def]

end Compositor

/-! ## Commas -/

@[simp] theorem Frame.count_zero (frame : Frame) : frame.count 0 = frame := by
  cases frame <;> rfl

@[simp] theorem Frame.count_count (frame : Frame) (first second : Nat) :
    (frame.count first).count second = frame.count (first + second) := by
  cases frame with
  | group before => exact congrArg Frame.group (Nat.add_assoc before first second)
  | params | plain | block | page => rfl

@[simp] theorem tally_zero (frames : List Frame) : tally 0 frames = frames := by
  cases frames with
  | nil => rfl
  | cons frame frames => exact congrArg (· :: frames) frame.count_zero

@[simp] theorem tally_tally (first second : Nat) (frames : List Frame) :
    tally second (tally first frames) = tally (first + second) frames := by
  cases frames with
  | nil => rfl
  | cons frame frames => exact congrArg (· :: frames) (frame.count_count first second)

@[simp] theorem untally_zero (frames : List Frame) : untally 0 frames = frames := by
  cases frames with
  | nil => rfl
  | cons frame frames => cases frame <;> rfl

/-- Commas between the names of an assignment do not count. -/
@[simp] theorem untally_tally (commas : Nat) (frames : List Frame) :
    untally commas (tally commas frames) = frames := by
  cases frames with
  | nil => rfl
  | cons frame frames =>
    refine congrArg (· :: frames) ?_
    cases frame with
    | group before => exact congrArg Frame.group (Nat.add_sub_cancel before commas)
    | params | plain | block | page => rfl

/-! ## What stands before a word -/

section Gaps

variable {frames : List Frame} {seam : Seam} {kind : Kind} {digit : Bool}

theorem gap_of_clings (desk : Compositor) (clings : kind.clings = true) :
    desk.gap kind digit = [] := by
  simp [Compositor.gap, clings]

theorem gap_of_takesBracket (takes : seam.takesBracket = true) (opens : kind.opensBracket = true) :
    Compositor.gap ⟨frames, seam⟩ kind digit = [] := by
  simp [Compositor.gap, takes, opens]

/-- A space stands between the end of an expression or a statement and a word that is no bracket. -/
theorem gap_of_isSettled (settled : seam.isSettled = true) (loose : kind.clings = false)
    (noBracket : kind.opensBracket = false) :
    Compositor.gap ⟨frames, seam⟩ kind digit = [.space] := by
  unfold Compositor.gap
  rw [loose, noBracket]
  cases seam <;> first | contradiction | rfl

def Compositor.lead (desk : Compositor) : Layout → Layout
  | [] => []
  | item :: _ => desk.gap item.kind (startsWithDigit [item])

/-- Whether a word may begin an expression or a statement. -/
def Item.leads (item : Item) : Bool :=
  !item.kind.clings && !item.kind.outdents && !(item.chars 0).isEmpty

/-- Whether a layout begins with a word that may begin an expression or a statement. -/
def leads : Layout → Bool
  | [] => false
  | item :: _ => item.leads

theorem leads_append {front : Layout} (leads : front.leads = true) (back : Layout) :
    (front ++ back).leads = true := by
  cases front with
  | nil => contradiction
  | cons item front => exact leads

theorem lead_append {front : Layout} (leads : front.leads = true) (desk : Compositor)
    (back : Layout) :
    desk.lead (front ++ back) = desk.lead front := by
  cases front with
  | nil => contradiction
  | cons item front => rfl

theorem lead_start (layout : Layout) : Compositor.lead ⟨frames, .start⟩ layout = [] := by
  cases layout with
  | nil => rfl
  | cons item layout => simp [Compositor.lead, Compositor.gap]

theorem lead_joint (layout : Layout) : Compositor.lead ⟨frames, .joint⟩ layout = [] := by
  cases layout with
  | nil => rfl
  | cons item layout => simp [Compositor.lead, Compositor.gap]

theorem lead_of_spaces {layout : Layout} (leads : layout.leads = true)
    (spaces : seam.spaces = true) :
    Compositor.lead ⟨frames, seam⟩ layout = [.space] := by
  cases layout with
  | nil => contradiction
  | cons item layout =>
    simp only [Layout.leads, Item.leads, Bool.and_eq_true, Bool.not_eq_true'] at leads
    have noBracket : seam.takesBracket = false := by cases seam <;> first | contradiction | rfl
    simp only [Compositor.lead, Compositor.gap, leads.1.1, noBracket]
    cases seam <;> first | contradiction | simp

theorem lead_line {layout : Layout} (leads : layout.leads = true) :
    Compositor.lead ⟨frames, .line⟩ layout = [.line (depth frames)] := by
  cases layout with
  | nil => contradiction
  | cons item layout =>
    simp only [Layout.leads, Item.leads, Bool.and_eq_true, Bool.not_eq_true'] at leads
    simp [Compositor.lead, Compositor.gap, leads.1.1, leads.1.2, Seam.takesBracket]

theorem lead_sign {layout : Layout} (leads : layout.leads = true) :
    Compositor.lead ⟨frames, .sign⟩ layout = if layout.startsWithDigit then [.space] else [] := by
  cases layout with
  | nil => contradiction
  | cons item layout =>
    simp only [Layout.leads, Item.leads, Bool.and_eq_true, Bool.not_eq_true'] at leads
    have sameHead : startsWithDigit (item :: layout) = startsWithDigit [item] := by
      unfold startsWithDigit Layout.head?
      cases spelling : item.chars 0 with
      | nil => simp [spelling] at leads
      | cons first more => rfl
    simp [Compositor.lead, Compositor.gap, leads.1.1, Seam.takesBracket, sameHead]

end Gaps

/-! ## Copies -/

/-- The items of the layout are taken, and `out` is laid out. If the given items are taken as well,
they are the items of the layout. -/
structure Copies (desk : Compositor) (items : List Item) (layout out : Layout)
    (after : Compositor) : Prop where
  lays : desk.run layout.bare = some (out, after)
  tidy : (desk.run items).isSome = true → items = layout.bare

abbrev Sets (desk : Compositor) (items : List Item) (layout : Layout) (after : Compositor) : Prop :=
  Copies desk items layout layout after

/-- The layout is laid out behind what stands before it. -/
abbrev Enters (desk : Compositor) (items : List Item) (layout : Layout)
    (after : Compositor) : Prop :=
  Copies desk items layout (desk.lead layout ++ layout) after

section Copies

variable {desk middle after : Compositor} {items others : List Item} {layout back out more : Layout}
variable {frames : List Frame} {seam : Seam} {kind : Kind} {text : String}

theorem Compositor.exists_of_run_append (taken : (desk.run (items ++ others)).isSome = true) :
    ∃ out middle, desk.run items = some (out, middle) ∧ (middle.run others).isSome = true := by
  rw [Compositor.run_append] at taken
  cases first : desk.run items with
  | none => simp [first] at taken
  | some pair => exact ⟨pair.1, pair.2, rfl, by simpa [first] using taken⟩

theorem Compositor.exists_of_run_cons {item : Item}
    (taken : (desk.run (item :: items)).isSome = true) :
    ∃ middle, desk.next item.kind = some middle ∧ (middle.run items).isSome = true := by
  rw [Compositor.run] at taken
  cases step : desk.next item.kind with
  | none => simp [step] at taken
  | some middle => exact ⟨middle, rfl, by simpa [step] using taken⟩

theorem Copies.taken (copies : Copies desk items layout out middle)
    (taken : (desk.run (items ++ others)).isSome = true) :
    items = layout.bare ∧ (middle.run others).isSome = true := by
  obtain ⟨_, _, run, takenBack⟩ := Compositor.exists_of_run_append taken
  have same := copies.tidy (by simp [run])
  rw [same, copies.lays, Option.some.injEq, Prod.mk.injEq] at run
  rw [← run.2] at takenBack
  exact ⟨same, takenBack⟩

theorem Copies.append (first : Copies desk items layout out middle)
    (second : Copies middle others back more after) :
    Copies desk (items ++ others) (layout ++ back) (out ++ more) after := by
  refine ⟨by simp [Compositor.run_append, first.lays, second.lays], fun taken => ?_⟩
  obtain ⟨same, takenBack⟩ := first.taken taken
  rw [bare_append, same, second.tidy takenBack]

theorem Copies.self (copies : Copies desk items layout out after) :
    Copies desk layout.bare layout out after :=
  ⟨copies.lays, fun _ => rfl⟩

theorem Copies.space (copies : Copies desk items layout out after) :
    Copies desk items (.space :: layout) out after :=
  ⟨copies.lays, copies.tidy⟩

def Item.isWord : Item → Bool
  | .word _ | .quoted .. => true
  | .space | .line _ => false

theorem bare_of_isWord {item : Item} (isWord : item.isWord = true) (layout : Layout) :
    bare (item :: layout) = item :: bare layout := by
  cases item <;> first | contradiction | rfl

theorem Compositor.put_of_isWord {item : Item} (isWord : item.isWord = true) (desk : Compositor) :
    desk.put item = desk.gap item.kind (startsWithDigit [item]) ++ [item] := by
  cases item <;> first | contradiction | rfl

theorem Copies.item {item : Item} (isWord : item.isWord = true)
    (step : desk.next item.kind = some middle) (rest : Copies middle items layout out after) :
    Copies desk (item :: items) (item :: layout)
      (desk.gap item.kind (startsWithDigit [item]) ++ item :: out) after := by
  have bare := bare_of_isWord isWord layout
  have put := Compositor.put_of_isWord isWord desk
  refine ⟨by simp [bare, Compositor.run, step, rest.lays, put], fun taken => ?_⟩
  obtain ⟨_, next, taken⟩ := Compositor.exists_of_run_cons taken
  rw [step, Option.some.injEq] at next
  rw [← next] at taken
  rw [bare, rest.tidy taken]

theorem Enters.item {item : Item} (isWord : item.isWord = true)
    (step : desk.next item.kind = some middle) (rest : Sets middle items layout after) :
    Enters desk (item :: items) (item :: layout) after :=
  Copies.item isWord step rest

theorem Enters.word (spelt : Spelt text kind) (step : desk.next kind = some middle)
    (rest : Sets middle items layout after) :
    Enters desk (.word text :: items) (.word text :: layout) after :=
  Enters.item rfl (by rw [Item.kind, spelt.isKind, step]) rest

theorem Enters.append (leads : layout.leads = true) (first : Enters desk items layout middle)
    (second : Sets middle others back after) :
    Enters desk (items ++ others) (layout ++ back) after := by
  have whole := Copies.append first second
  rwa [List.append_assoc, ← lead_append leads desk back] at whole

theorem Sets.nil : Sets desk [] [] desk :=
  ⟨rfl, fun _ => rfl⟩

theorem Sets.append (first : Sets desk items layout middle)
    (second : Sets middle others back after) :
    Sets desk (items ++ others) (layout ++ back) after :=
  Copies.append first second

theorem Sets.tight (spelt : Spelt text kind) (gap : desk.gap kind false = [])
    (step : desk.next kind = some middle) (rest : Sets middle items layout after) :
    Sets desk (.word text :: items) (.word text :: layout) after := by
  have whole : Copies desk (.word text :: items) (.word text :: layout) _ after :=
    .item rfl (by rw [Item.kind, spelt.isKind, step]) rest
  rwa [Item.kind, spelt.isKind, spelt.noDigit, gap] at whole

theorem Sets.spaced (spelt : Spelt text kind) (gap : desk.gap kind false = [.space])
    (step : desk.next kind = some middle) (rest : Sets middle items layout after) :
    Sets desk (.word text :: items) (.space :: .word text :: layout) after := by
  have whole : Copies desk (.word text :: items) (.word text :: layout) _ after :=
    .item rfl (by rw [Item.kind, spelt.isKind, step]) rest
  rw [Item.kind, spelt.isKind, spelt.noDigit, gap] at whole
  exact whole.space

theorem Sets.feed {level : Nat} (step : desk.fed = some middle)
    (rest : Copies middle items layout (.line level :: layout) after) :
    Sets desk (.line 0 :: items) (.line level :: layout) after := by
  refine ⟨?_, fun taken => ?_⟩
  · have next : desk.next (Item.kind (.line 0)) = some middle := step
    simp [Compositor.run, next, rest.lays, Compositor.put]
  · obtain ⟨_, next, taken⟩ := Compositor.exists_of_run_cons taken
    have same : desk.fed = some _ := next
    rw [step, Option.some.injEq] at same
    rw [← same] at taken
    rw [bare_line, rest.tidy taken]

theorem Enters.sets (enters : Enters ⟨frames, .start⟩ items layout after) :
    Sets ⟨frames, .start⟩ items layout after := by
  rwa [Enters, lead_start] at enters

theorem Enters.spaced (leads : layout.leads = true) (spaces : seam.spaces = true)
    (enters : Enters ⟨frames, seam⟩ items layout after) :
    Sets ⟨frames, seam⟩ items (.space :: layout) after := by
  rw [Enters, lead_of_spaces leads spaces] at enters
  exact enters.space

theorem Enters.signed (leads : layout.leads = true)
    (enters : Enters ⟨frames, .sign⟩ items layout after) :
    Sets ⟨frames, .sign⟩ items (if layout.startsWithDigit then .space :: layout else layout)
      after := by
  rw [Enters, lead_sign leads] at enters
  cases digit : layout.startsWithDigit with
  | true =>
    rw [digit] at enters
    exact enters.space
  | false =>
    rw [digit] at enters
    exact enters

theorem Enters.line (leads : layout.leads = true)
    (enters : Enters ⟨frames, .line⟩ items layout after) :
    Copies ⟨frames, .line⟩ items layout (.line (depth frames) :: layout) after := by
  rwa [Enters, lead_line leads] at enters

end Copies

end Layout

end Parlance
