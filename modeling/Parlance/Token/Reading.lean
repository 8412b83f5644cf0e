import Parlance.Fault
import Parlance.Text.NameContinue

/-!
Contract: a source text read as tokens.

Owns: the piece of text that stands at a place (`Piece.read`), and the reading of a whole text as
tokens up to its end or its first fault (`Reading.ofText`). Each piece is a non-empty stretch of the
text; pieces follow each other without overlap. Spaces and comments are pieces that give no token.
The reading walks the text once, character by character, and counts down the characters that belong
to a piece already read, so it needs no measure other than the text itself. Embeds `Lexer.tokens`
and what it calls.
-/

namespace Parlance

/-- The stretch of text at one place. -/
inductive Piece where
  /-- A space or a comment. -/
  | gap (width : Nat)
  /-- A line break of one or two characters. -/
  | lineBreak (width : Nat)
  /-- A token of one line or more, with its text and its quote. -/
  | word (width : Nat) (kind : Kind) (text : String) (quote : String)
  /-- Text that no token begins with. -/
  | fault (cause : Fault)
deriving DecidableEq, Repr

namespace Piece

/-- A comment runs up to a line feed, or a carriage return with a line feed behind it. -/
def commentBody : List Char → List Char
  | [] => []
  | '\n' :: _ => []
  | '\r' :: '\n' :: _ => []
  | c :: rest => c :: commentBody rest

/-- A string runs up to the next occurrence of its quote. No character is special inside it. -/
def readString (quote : Char) (rest : List Char) : Piece :=
  let body := rest.takeWhile (· != quote)
  if body.length < rest.length then
    .word (body.length + 2) .string (String.ofList body) (String.ofList [quote])
  else .fault (.openString quote)

def fraction : List Char → List Char
  | '.' :: d :: rest => if d.isDigit then '.' :: d :: rest.takeWhile Char.isDigit else []
  | _ => []

/-- The digits of a number from its first digit on: no digit may follow a leading zero, and a
fraction has at least one digit. -/
def digits (first : Char) (rest : List Char) : Except Fault (List Char) :=
  if first == '0' then
    match rest with
    | d :: _ => if d.isDigit then .error .leadingZero else .ok (first :: fraction rest)
    | [] => .ok [first]
  else
    let whole := rest.takeWhile Char.isDigit
    .ok (first :: whole ++ fraction (rest.drop whole.length))

def readNumber (sign : List Char) (first : Char) (rest : List Char) : Piece :=
  match digits first rest with
  | .error cause => .fault cause
  | .ok text => .word (sign.length + text.length) .number (String.ofList (sign ++ text)) ""

/-- The longest word from a character that may begin a name. -/
def readWord (first : Char) (rest : List Char) : Piece :=
  let text := first :: rest.takeWhile Text.isNameContinue
  let spelling := String.ofList text
  .word text.length (Kind.ofWord spelling) spelling ""

/-- An operator or a punctuation mark, two characters before one. -/
def readSymbol (first : Char) (rest : List Char) : Piece :=
  match rest.head?.bind (Symbol.ofTwo? first) with
  | some mark => .word 2 (.symbol mark) mark.spelling ""
  | none =>
    match Symbol.ofOne? first with
    | some mark => .word 1 (.symbol mark) mark.spelling ""
    | none => .fault (.strayCharacter first)

/-- The piece that begins with a character. A minus sign belongs to a number only where an operand
may begin, which `signed` tells. -/
def read (signed : Bool) (first : Char) (rest : List Char) : Piece :=
  if first == ' ' then .gap 1
  else if first == '#' then .gap ((commentBody rest).length + 1)
  else if first == '\n' then .lineBreak 1
  else if first == '\r' && rest.head? == some '\n' then .lineBreak 2
  else if first == '\x22' || first == '\x27' then readString first rest
  else if first.isDigit then readNumber [] first rest
  else if Text.isNameStart first then readWord first rest
  else
    match first, rest with
    | '-', d :: more =>
      if d.isDigit && signed then readNumber ['-'] d more else readSymbol first rest
    | _, _ => readSymbol first rest

end Piece

inductive Ending where
  /-- The text is over, at this place. -/
  | finished (span : Span)
  /-- Nothing can be read from this fault on. -/
  | broken (failure : Failure)
deriving DecidableEq, Repr

/-- The tokens of a text and how they end. The token for the end of the input is not among them. -/
structure Reading where
  tokens : List Token
  ending : Ending
deriving DecidableEq, Repr

namespace Reading

def cons (token : Token) (reading : Reading) : Reading :=
  { reading with tokens := token :: reading.tokens }

/-- At the end of a text a last line without a break is closed. -/
def close (last : Option Kind) (here : Position) : Reading :=
  let lineEnd : List Token :=
    match last with
    | none | some .newline => []
    | some _ => [⟨.newline, "", "", .point here⟩]
  ⟨lineEnd, .finished (.point here)⟩

/-- The rest of a text as tokens. `skip` characters belong to the piece read last, `last` is the
kind of the token before, and `here` is the place of the next character. -/
def readOn (last : Option Kind) (here : Position) : Nat → List Char → Reading
  | _, [] => close last here
  | skip + 1, c :: rest => readOn last (here.after c) skip rest
  | 0, c :: rest =>
    match Piece.read (!last.any Kind.endsOperand) c rest with
    | .gap width => readOn last (here.after c) (width - 1) rest
    | .lineBreak width =>
      cons ⟨.newline, "\n", "", .point here⟩
        (readOn (some .newline) (here.after c) (width - 1) rest)
    | .word width kind text quote =>
      let behind := here.afterAll ((c :: rest).take width)
      cons ⟨kind, text, quote, .between here behind⟩
        (readOn (some kind) (here.after c) (width - 1) rest)
    | .fault cause => ⟨[], .broken ⟨cause, .point here⟩⟩

def ofText (text : String) : Reading :=
  readOn none .start 0 text.toList

/-- All tokens, closed by the one for the end of the input, if the text has no fault. -/
def allTokens (reading : Reading) : List Token :=
  match reading.ending with
  | .finished span => reading.tokens ++ [.endOfInput span]
  | .broken _ => reading.tokens

def complete (reading : Reading) : Except Failure (List Token) :=
  match reading.ending with
  | .finished _ => .ok reading.allTokens
  | .broken failure => .error failure

/-- The reading that a list of tokens stands for: it ends at the first token for the end of the
input, or else behind its last token. -/
def ofTokens (tokens : List Token) : Reading :=
  let before := tokens.takeWhile (·.kind != .endOfInput)
  let span :=
    match tokens.drop before.length with
    | stop :: _ => stop.span
    | [] => (before.getLast?.map (·.span)).getD .origin
  ⟨before, .finished span⟩

end Reading

end Parlance
