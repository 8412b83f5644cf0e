import Parlance.Text.Blank
import Parlance.Text.Lines
import Parlance.Text.WordChar

/-!
Contract: the colour classes of a source text in an editor.

Rules are tried in order at each place, and the first that matches tints the stretch it matches; a
character no rule matches is an error of its own. The rules know the text only: they take keywords
at word boundaries, and names by their ASCII letters. Owns: the rules, the pieces of a text, and
the form in which an editor first brings a text. Does not own: the tokens of the language. Embeds
`ConcordeLexer`, a lexer of regular expressions.
-/

namespace Parlance

inductive Tint where
  | blank | comment | doubleString | singleString | decimal | whole | declaration | wordOperator
  | keyword | constant | selfName | operator | className | key | name | punctuation | error
deriving DecidableEq, Repr

namespace Tint

def label : Tint → String
  | .blank => "Token.Text"
  | .comment => "Token.Comment.Single"
  | .doubleString => "Token.Literal.String.Double"
  | .singleString => "Token.Literal.String.Single"
  | .decimal => "Token.Literal.Number.Float"
  | .whole => "Token.Literal.Number.Integer"
  | .declaration => "Token.Keyword.Declaration"
  | .wordOperator => "Token.Operator.Word"
  | .keyword => "Token.Keyword"
  | .constant => "Token.Keyword.Constant"
  | .selfName => "Token.Name.Builtin.Pseudo"
  | .operator => "Token.Operator"
  | .className => "Token.Name.Class"
  | .key => "Token.Name.Attribute"
  | .name => "Token.Name"
  | .punctuation => "Token.Punctuation"
  | .error => "Token.Error"

/-- A rule gives the length of the stretch it matches at the front of a text, zero if it does not
match, and may look at the character before. -/
abbrev Rule := Option Char → List Char → Nat

namespace Rule

def blank : Rule := fun _ text =>
  (text.takeWhile Text.isBlank).length

def comment : Rule := fun _ text =>
  match text with
  | '#' :: rest => (rest.takeWhile (· != '\n')).length + 1
  | _ => 0

def string (quote : Char) : Rule := fun _ text =>
  match text with
  | first :: rest =>
    if first == quote then
      let body := rest.takeWhile (· != quote)
      if body.length < rest.length then body.length + 2 else 0
    else 0
  | [] => 0

/-- A whole number, which has no digit behind a leading zero. -/
def whole : Rule := fun _ text =>
  match text with
  | '0' :: _ => 1
  | digits => (digits.takeWhile Char.isDigit).length

def decimal : Rule := fun before text =>
  match whole before text with
  | 0 => 0
  | length =>
    match text.drop length with
    | '.' :: rest =>
      match (rest.takeWhile Char.isDigit).length with
      | 0 => 0
      | behind => length + 1 + behind
    | _ => 0

/-- Whether a place between two characters, of which either may be missing, is inside a word. -/
def insideWord (before : Option Char) (behind : Option Char) : Bool :=
  before.any Text.isWordChar && behind.any Text.isWordChar

def words (words : List String) : Rule := fun before text =>
  if insideWord before text.head? then 0
  else
    match words.find? fun word =>
        let length := word.toList.length
        word.toList.isPrefixOf text &&
          !insideWord (text.take length).getLast? (text.drop length).head? with
    | some word => word.toList.length
    | none => 0

def spellings (spellings : List String) : Rule := fun _ text =>
  match spellings.find? fun spelling => spelling.toList.isPrefixOf text with
  | some spelling => spelling.toList.length
  | none => 0

def isNameChar (c : Char) : Bool :=
  c.isAlphanum || c == '_'

/-- A name from a first character of the given class on, with a question mark if there is one. -/
def nameFrom (first : Char → Bool) : Rule := fun _ text =>
  match text with
  | c :: rest =>
    if first c then
      let length := (rest.takeWhile isNameChar).length + 1
      match text.drop length with
      | '?' :: _ => length + 1
      | _ => length
    else 0
  | [] => 0

def className : Rule :=
  nameFrom Char.isUpper

def plainName : Rule :=
  nameFrom fun c => c.isLower || c == '_'

def keyName : Rule := fun before text =>
  let length := plainName before text
  match text.drop length with
  | ':' :: ':' :: _ => 0
  | ':' :: _ => length
  | _ => 0

end Rule

def rules : List (Tint × Rule) := [
  (.blank, Rule.blank),
  (.comment, Rule.comment),
  (.doubleString, Rule.string '\x22'),
  (.singleString, Rule.string '\x27'),
  (.decimal, Rule.decimal),
  (.whole, Rule.whole),
  (.declaration, Rule.words ["class", "def", "fn", "use"]),
  (.wordOperator, Rule.words ["and", "or", "not"]),
  (.keyword, Rule.words ["if", "then", "else", "end", "for", "in", "while", "do", "break",
    "continue", "return"]),
  (.constant, Rule.words ["true", "false", "nil"]),
  (.selfName, Rule.words ["self"]),
  (.operator, Rule.spellings ["==", "!=", "<=", ">=", "+=", "-=", "*=", "/=", "->", "::"]),
  (.operator, Rule.spellings ["+", "-", "*", "/", "%", "<", ">", "="]),
  (.operator, Rule.spellings ["."]),
  (.className, Rule.className),
  (.key, Rule.keyName),
  (.name, Rule.plainName),
  (.punctuation, Rule.spellings ["(", ")", ",", ";", "[", "]", "\x7b", "\x7d", ":"])]

def firstOf (before : Option Char) (text : List Char) : List (Tint × Rule) → Tint × Nat
  | [] => (.error, 1)
  | (tint, rule) :: rest =>
    match rule before text with
    | 0 => firstOf before text rest
    | length + 1 => (tint, length + 1)

def first (before : Option Char) (text : List Char) : Tint × Nat :=
  firstOf before text rules

structure Piece where
  offset : Nat
  tint : Tint
  text : List Char
deriving DecidableEq, Repr

/-- The pieces of a text from an offset on, behind the characters that belong to a piece already
found. -/
def piecesFrom (offset : Nat) (before : Option Char) : Nat → List Char → List Piece
  | _, [] => []
  | skip + 1, c :: rest => piecesFrom (offset + 1) (some c) skip rest
  | 0, c :: rest =>
    let (tint, length) := first before (c :: rest)
    ⟨offset, tint, (c :: rest).take length⟩ ::
      piecesFrom (offset + 1) (some c) (length - 1) rest

def pieces (text : String) : List Piece :=
  piecesFrom 0 none 0 text.toList

/-- A text without line feeds at its start. -/
def dropLeadingFeeds (text : List Char) : List Char :=
  text.dropWhile (· == '\n')

/-- A text as an editor brings it: without a byte order mark, with one kind of line break, without
blank lines around it, and with a line break at its end. -/
def prepared (text : String) : String :=
  let unmarked :=
    match text.toList with
    | '\ufeff' :: rest => rest
    | chars => chars
  let trimmed := dropLeadingFeeds (Text.unifyBreaks unmarked)
  String.ofList ((dropLeadingFeeds trimmed.reverse).reverse ++ ['\n'])

end Tint

end Parlance
