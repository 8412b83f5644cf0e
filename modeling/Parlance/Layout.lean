import Parlance.Syntax.Operator

/-!
Contract: source text as words, spaces and indented lines.

A layout is a row of items that stand directly behind each other. Owns: the items, how each
construct of the language is put together from the layouts of its parts, and the text of a layout
under a given indentation. Does not own: the trees that are laid out. Embeds the texts that
`ConcordeFormatter` puts together.
-/

namespace Parlance

inductive Layout.Item where
  | word (text : String)
  /-- A text between two quotes, which may hold line breaks. -/
  | quoted (quote : String) (text : String)
  | space
  /-- A line break and the indentation of the given level. -/
  | line (level : Nat)
deriving DecidableEq, Repr

abbrev Layout := List Layout.Item

namespace Layout

/-- The characters of an item. A width below zero indents like zero. -/
def Item.chars (width : Int) : Item → List Char
  | .word text => text.toList
  | .quoted quote text => quote.toList ++ (text.toList ++ quote.toList)
  | .space => [' ']
  | .line level => '\n' :: List.replicate (width * level).toNat ' '

def chars (width : Int) (layout : Layout) : List Char :=
  layout.flatMap (Item.chars width)

def head? : Layout → Option Char
  | [] => none
  | item :: rest =>
    match item.chars 0 with
    | [] => head? rest
    | first :: _ => some first

def startsWithDigit (layout : Layout) : Bool :=
  match layout.head? with
  | some first => first.isDigit
  | none => false

def commas : List Layout → Layout
  | [] => []
  | [only] => only
  | first :: rest => first ++ ([.word ",", .space] ++ commas rest)

def names (names : List String) : Layout :=
  commas (names.map fun name => [.word name])

def path : List String → Layout
  | [] => []
  | [only] => [.word only]
  | first :: rest => [.word first, .word "::"] ++ path rest

def boolean (value : Bool) : Layout :=
  [.word (if value then "true" else "false")]

def parenthesized (inner : Layout) : Layout :=
  [.word "("] ++ inner ++ [.word ")"]

def tuple : List Layout → Layout
  | [only] => parenthesized (only ++ [.word ","])
  | elements => parenthesized (commas elements)

def bracketed (inner : Layout) : Layout :=
  [.word "["] ++ inner ++ [.word "]"]

def entry (key : String) (value : Layout) : Layout :=
  [.word key, .word ":", .space] ++ value

def dictionary : List Layout → Layout
  | [] => bracketed [.word ":"]
  | entries => bracketed (commas entries)

/-- An operator before its operand. A space keeps a minus sign apart from a digit, since the two
would be read as one number. -/
def unary (op : UnaryOp) (operand : Layout) : Layout :=
  match op with
  | .not => [.word "not", .space] ++ operand
  | .minus =>
    if operand.startsWithDigit then [.word "-", .space] ++ operand else [.word "-"] ++ operand

def infixed (left : Layout) (op : String) (right : Layout) : Layout :=
  left ++ ([.space, .word op, .space] ++ right)

def index (target : Layout) (place : Layout) : Layout :=
  target ++ bracketed place

def access (target : Layout) (member : String) : Layout :=
  target ++ [.word ".", .word member]

def call (target : Layout) (args : List Layout) : Layout :=
  target ++ parenthesized (commas args)

def lines (level : Nat) (body : List Layout) : Layout :=
  body.flatMap (.line level :: ·)

/-- A header, the body one level deeper, and the closing `end`. -/
def block (level : Nat) (header : Layout) (body : List Layout) : Layout :=
  header ++ (lines (level + 1) body ++ [.line level, .word "end"])

/-- The head of a closure up to and including the arrow and a space. -/
def closureHead (params : List String) : Layout :=
  [.word "fn", .space] ++ (names params ++ [.space, .word "->", .space])

def closureLine (params : List String) (body : Layout) : Layout :=
  closureHead params ++ (body ++ [.space, .word "end"])

def closureBlock (level : Nat) (params : List String) (body : List Layout) : Layout :=
  block level (closureHead params ++ [.word "do"]) body

def ifLine (condition : Layout) (thenDo : Layout) : Layout :=
  [.word "if", .space] ++ (condition ++ ([.space, .word "then", .space] ++ thenDo))

def ifLineElse (condition : Layout) (thenDo : Layout) (elseDo : Layout) : Layout :=
  ifLine condition thenDo ++ ([.space, .word "else", .space] ++ elseDo)

def ifBlock (level : Nat) (condition : Layout) (thenDo : List Layout) : Layout :=
  block level ([.word "if", .space] ++ condition) thenDo

def ifBlockElse (level : Nat) (condition : Layout) (thenDo : List Layout)
    (elseDo : List Layout) : Layout :=
  block level
    ([.word "if", .space] ++
      (condition ++ (lines (level + 1) thenDo ++ [.line level, .word "else"])))
    elseDo

def defaulted (name : String) (value : Layout) : Layout :=
  infixed [.word name] "=" value

def classHead (name : String) : Layout :=
  [.word "class", .space, .word name]

def classFieldsHead (name : String) (fields : List Layout) : Layout :=
  classHead name ++ parenthesized (commas fields)

def methodHead (shared : Bool) (name : String) (params : List Layout) : Layout :=
  [.word "def", .space] ++
    ((if shared then [.word "self", .word "::", .word name] else [.word name]) ++
      parenthesized (commas params))

def forHead (bindings : List String) (source : Layout) : Layout :=
  [.word "for", .space] ++ (names bindings ++ ([.space, .word "in", .space] ++ source))

def whileHead (condition : Layout) : Layout :=
  [.word "while", .space] ++ condition

def returnValue (value : Layout) : Layout :=
  [.word "return", .space] ++ value

def use (modulePath : List String) : Layout :=
  [.word "use", .space] ++ path modulePath

structure Row where
  declares : Bool
  layout : Layout

/-- The characters of statements at the outermost level, each on lines of its own. A blank line
stands between two of them if one of the two is a declaration. -/
def pageChars (width : Int) : List Row → List Char
  | [] => []
  | [last] => last.layout.chars width ++ ['\n']
  | row :: next :: rest =>
    let gap := if row.declares || next.declares then ['\n', '\n'] else ['\n']
    row.layout.chars width ++ (gap ++ pageChars width (next :: rest))

def page (width : Int) (rows : List Row) : String :=
  String.ofList (pageChars width rows)

end Layout

end Parlance
