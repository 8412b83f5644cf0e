import Parlance.Span
import Parlance.Text.Quoted

/-!
Contract: the words of the language.

Owns: the kinds of token with their spellings and their listed names, the reserved words, the
operators and punctuation, and the description of a token in a message. Does not own: how a text is
cut into tokens. Embeds `TokenKind`, `Token` and `describe`.
-/

namespace Parlance

inductive Keyword where
  | kwClass | kwDef | kwEnd | kwIf | kwElse | kwFor | kwIn | kwWhile | kwAnd | kwOr | kwNot
  | kwBreak | kwContinue | kwReturn | kwThen | kwDo | kwFn | kwUse
deriving DecidableEq, Repr

inductive Symbol where
  | lparen | rparen | lbracket | rbracket | lbrace | rbrace
  | comma | dot | colon | semicolon | arrow | doubleColon
  | plus | minus | star | slash | percent
  | assign | equal | notEqual | greater | greaterEqual | less | lessEqual
  | plusAssign | minusAssign | starAssign | slashAssign
deriving DecidableEq, Repr

inductive Kind where
  | name
  | number
  | string
  | boolean
  | nil
  | keyword (word : Keyword)
  | symbol (mark : Symbol)
  | newline
  | endOfInput
deriving DecidableEq, Repr

namespace Keyword

def all : List Keyword :=
  [.kwClass, .kwDef, .kwEnd, .kwIf, .kwElse, .kwFor, .kwIn, .kwWhile, .kwAnd, .kwOr, .kwNot,
    .kwBreak, .kwContinue, .kwReturn, .kwThen, .kwDo, .kwFn, .kwUse]

def spelling : Keyword → String
  | .kwClass => "class"
  | .kwDef => "def"
  | .kwEnd => "end"
  | .kwIf => "if"
  | .kwElse => "else"
  | .kwFor => "for"
  | .kwIn => "in"
  | .kwWhile => "while"
  | .kwAnd => "and"
  | .kwOr => "or"
  | .kwNot => "not"
  | .kwBreak => "break"
  | .kwContinue => "continue"
  | .kwReturn => "return"
  | .kwThen => "then"
  | .kwDo => "do"
  | .kwFn => "fn"
  | .kwUse => "use"

def label : Keyword → String
  | .kwClass => "CLASS"
  | .kwDef => "DEF"
  | .kwEnd => "END"
  | .kwIf => "IF"
  | .kwElse => "ELSE"
  | .kwFor => "FOR"
  | .kwIn => "IN"
  | .kwWhile => "WHILE"
  | .kwAnd => "AND"
  | .kwOr => "OR"
  | .kwNot => "NOT"
  | .kwBreak => "BREAK"
  | .kwContinue => "CONTINUE"
  | .kwReturn => "RETURN"
  | .kwThen => "THEN"
  | .kwDo => "DO"
  | .kwFn => "FN"
  | .kwUse => "USE"

end Keyword

namespace Symbol

def all : List Symbol :=
  [.lparen, .rparen, .lbracket, .rbracket, .lbrace, .rbrace, .comma, .dot, .colon, .semicolon,
    .arrow, .doubleColon, .plus, .minus, .star, .slash, .percent, .assign, .equal, .notEqual,
    .greater, .greaterEqual, .less, .lessEqual, .plusAssign, .minusAssign, .starAssign,
    .slashAssign]

def spelling : Symbol → String
  | .lparen => "("
  | .rparen => ")"
  | .lbracket => "["
  | .rbracket => "]"
  | .lbrace => "\x7b"
  | .rbrace => "\x7d"
  | .comma => ","
  | .dot => "."
  | .colon => ":"
  | .semicolon => ";"
  | .arrow => "->"
  | .doubleColon => "::"
  | .plus => "+"
  | .minus => "-"
  | .star => "*"
  | .slash => "/"
  | .percent => "%"
  | .assign => "="
  | .equal => "=="
  | .notEqual => "!="
  | .greater => ">"
  | .greaterEqual => ">="
  | .less => "<"
  | .lessEqual => "<="
  | .plusAssign => "+="
  | .minusAssign => "-="
  | .starAssign => "*="
  | .slashAssign => "/="

def label : Symbol → String
  | .lparen => "LPAREN"
  | .rparen => "RPAREN"
  | .lbracket => "LBRACKET"
  | .rbracket => "RBRACKET"
  | .lbrace => "LBRACE"
  | .rbrace => "RBRACE"
  | .comma => "COMMA"
  | .dot => "DOT"
  | .colon => "COLON"
  | .semicolon => "SEMICOLON"
  | .arrow => "ARROW"
  | .doubleColon => "DOUBLE_COLON"
  | .plus => "PLUS"
  | .minus => "MINUS"
  | .star => "STAR"
  | .slash => "SLASH"
  | .percent => "PERCENT"
  | .assign => "ASSIGN"
  | .equal => "EQUAL"
  | .notEqual => "NOT_EQUAL"
  | .greater => "GREATER"
  | .greaterEqual => "GREATER_EQUAL"
  | .less => "LESS"
  | .lessEqual => "LESS_EQUAL"
  | .plusAssign => "PLUS_ASSIGN"
  | .minusAssign => "MINUS_ASSIGN"
  | .starAssign => "STAR_ASSIGN"
  | .slashAssign => "SLASH_ASSIGN"

def ofTwo? : Char → Char → Option Symbol
  | '=', '=' => some .equal
  | '!', '=' => some .notEqual
  | '>', '=' => some .greaterEqual
  | '<', '=' => some .lessEqual
  | '+', '=' => some .plusAssign
  | '-', '=' => some .minusAssign
  | '*', '=' => some .starAssign
  | '/', '=' => some .slashAssign
  | ':', ':' => some .doubleColon
  | '-', '>' => some .arrow
  | _, _ => none

def ofOne? : Char → Option Symbol
  | '(' => some .lparen
  | ')' => some .rparen
  | '[' => some .lbracket
  | ']' => some .rbracket
  | '\x7b' => some .lbrace
  | '\x7d' => some .rbrace
  | ',' => some .comma
  | '.' => some .dot
  | ':' => some .colon
  | ';' => some .semicolon
  | '+' => some .plus
  | '-' => some .minus
  | '*' => some .star
  | '/' => some .slash
  | '%' => some .percent
  | '=' => some .assign
  | '>' => some .greater
  | '<' => some .less
  | _ => none

end Symbol

namespace Kind

def all : List Kind :=
  [.name, .number, .string, .boolean, .nil] ++ Keyword.all.map .keyword ++
    Symbol.all.map .symbol ++ [.newline, .endOfInput]

def label : Kind → String
  | .name => "IDENT"
  | .number => "NUMBER"
  | .string => "STRING"
  | .boolean => "BOOL"
  | .nil => "NIL"
  | .keyword word => word.label
  | .symbol mark => mark.label
  | .newline => "NEWLINE"
  | .endOfInput => "EOF"

def ofLabel? (text : String) : Option Kind :=
  all.find? fun kind => kind.label == text

/-- The reserved words, each with the kind it has as a whole word. -/
def reserved : List (String × Kind) :=
  [("true", .boolean), ("false", .boolean), ("nil", .nil)] ++
    Keyword.all.map fun word => (word.spelling, .keyword word)

/-- The kind of a word: reserved if the whole word is, and a name otherwise. -/
def ofWord (word : String) : Kind :=
  (reserved.lookup word).getD .name

/-- A token of this kind can end an operand, so a minus sign behind it is an operator. -/
def endsOperand : Kind → Bool
  | .name | .number | .string | .boolean | .nil => true
  | .keyword .kwEnd => true
  | .symbol .rparen | .symbol .rbracket => true
  | _ => false

def describe : Kind → String
  | .name => "identifier"
  | .number => "number"
  | .string => "string literal"
  | .boolean => "boolean"
  | .nil => "'nil'"
  | .keyword word => "'" ++ word.spelling ++ "'"
  | .symbol mark => "'" ++ mark.spelling ++ "'"
  | .newline => "end of line"
  | .endOfInput => "end of input"

end Kind

/-- A token: its kind, its text, the quote of a string, and where it stands. -/
structure Token where
  kind : Kind
  text : String
  quote : String
  span : Span
deriving DecidableEq, Repr

namespace Token

def endOfInput (span : Span) : Token :=
  ⟨.endOfInput, "", "", span⟩

def describe (token : Token) : String :=
  match token.kind with
  | .name => "identifier " ++ Text.quoted token.text
  | .number => "number " ++ token.text
  | .string => "string " ++ token.quote ++ token.text ++ token.quote
  | .boolean => "'" ++ token.text ++ "'"
  | kind => kind.describe

end Token

end Parlance
