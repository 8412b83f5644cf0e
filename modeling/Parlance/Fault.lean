import Parlance.Token

/-!
Contract: everything that can be wrong with a source text.

Owns: the causes of rejection, and for each its code, message and notes. A cause says what was
expected and which token stood there instead; its wording is decided here and nowhere else. Does not
own: the place of a fault, which the reader that meets it adds. Embeds `ErrorKind`, `ParseError` and
the messages of both readers.
-/

namespace Parlance

inductive Bracket where
  | round
  | square
deriving DecidableEq, Repr

namespace Bracket

def close : Bracket → Symbol
  | .round => .rparen
  | .square => .rbracket

end Bracket

/-- The constructs whose body is a block of lines. -/
inductive Block where
  | program
  | classBody
  | methodBody
  | forBody
  | whileBody
  | thenBranch
  | elseBranch
  | closureBody
deriving DecidableEq, Repr

namespace Block

/-- The tokens that end the block. They are left for the construct that holds it. -/
def endsAt : Block → Kind → Bool
  | .program, kind => kind == .endOfInput
  | .thenBranch, kind => kind == .keyword .kwElse || kind == .keyword .kwEnd
  | _, kind => kind == .keyword .kwEnd

def closing : Block → String
  | .program => "end of input"
  | .classBody => "'end' to close class"
  | .methodBody => "'end' to close method"
  | .forBody => "'end' to close for loop"
  | .whileBody => "'end' to close while loop"
  | .thenBranch => "'else' or 'end' to close if"
  | .elseBranch => "'end' to close if"
  | .closureBody => "'end' to close closure"

end Block

/-- What the grammar admits at a place where something else stands. -/
inductive Expectation where
  | expression
  | assignmentOperator
  | thenOrLineEnd
  | lineEnd
  | blockEnd (block : Block)
  | variableName
  | modulePath
  | modulePathSegment
  | className
  | classHeaderEnd
  | methodName
  | parameterList
  | methodHeaderEnd
  | parameterName
  | loopSource
  | forHeaderEnd
  | whileHeaderEnd
  | elseLineEnd
  | indexEnd
  | memberName
  | itemEnd (bracket : Bracket)
  | pathSegment
  | emptyDictionaryEnd
  | dictionaryKey
  | dictionaryColon
  | closureArrow
  | doLineEnd
  | closureEnd
deriving DecidableEq, Repr

namespace Expectation

def describe : Expectation → String
  | .expression => "expression"
  | .assignmentOperator => "assignment operator after destructuring target"
  | .thenOrLineEnd => "'then' or end of line after if condition"
  | .lineEnd => "end of line after statement"
  | .blockEnd block => block.closing
  | .variableName => "variable name"
  | .modulePath => "module path"
  | .modulePathSegment => "module path segment"
  | .className => "class name"
  | .classHeaderEnd => "end of line after class header"
  | .methodName => "method name"
  | .parameterList => "parameter list"
  | .methodHeaderEnd => "'=' or end of line after method header"
  | .parameterName => "parameter name"
  | .loopSource => (Kind.keyword .kwIn).describe
  | .forHeaderEnd => "end of line after for header"
  | .whileHeaderEnd => "end of line after while condition"
  | .elseLineEnd => "end of line after 'else'"
  | .indexEnd => (Kind.symbol .rbracket).describe
  | .memberName => "member name after '.'"
  | .itemEnd bracket => "',' or " ++ (Kind.symbol bracket.close).describe
  | .pathSegment => "name after '::'"
  | .emptyDictionaryEnd => "']' to close empty dictionary"
  | .dictionaryKey => "dictionary key"
  | .dictionaryColon => "':' after dictionary key"
  | .closureArrow => "'->' after closure parameters"
  | .doLineEnd => "end of line after 'do'"
  | .closureEnd => Block.closureBody.closing

/-- Three expectations concern the choice of a construct; the others concern its completion. -/
def code : Expectation → String
  | .expression | .assignmentOperator | .thenOrLineEnd => "E200"
  | _ => "E201"

/-- Advice for the mistakes that are made most often. -/
def notes : Expectation → Kind → List String
  | .expression, .keyword .kwIf =>
    ["an `if` expression must be parenthesized inside another expression"]
  | .lineEnd, .keyword .kwElse => ["use `if COND then STMT else STMT` for a one-line if"]
  | .parameterList, _ => ["methods without parameters are written `def name()`"]
  | .elseLineEnd, .keyword .kwIf => ["nest a new `if` block inside the else branch"]
  | _, _ => []

end Expectation

/-- A fault is found while cutting the text into tokens or while fitting them together. -/
inductive FaultStage where
  | lexical
  | grammatical
deriving DecidableEq, Repr

namespace FaultStage

def describe : FaultStage → String
  | .lexical => "lexical"
  | .grammatical => "syntax"

end FaultStage

inductive Fault where
  /-- A character that begins no token. -/
  | strayCharacter (c : Char)
  /-- A string whose closing quote is missing. -/
  | openString (quote : Char)
  /-- A number that goes on after a leading zero. -/
  | leadingZero
  /-- A token that the grammar does not admit where it stands. -/
  | unexpected (wanted : Expectation) (found : Token)
  /-- More levels of nesting than the limit, which is shown as it was set. -/
  | tooDeep (limit : String)
  /-- More levels of nesting than can be held, within a limit that admits them. -/
  | exhausted (limit : String)
  /-- An expression that cannot be assigned. -/
  | badTarget
deriving DecidableEq, Repr

namespace Fault

def stage : Fault → FaultStage
  | .strayCharacter _ | .openString _ | .leadingZero => .lexical
  | _ => .grammatical

def code : Fault → String
  | .strayCharacter _ => "E100"
  | .openString _ => "E101"
  | .leadingZero => "E102"
  | .unexpected wanted _ => wanted.code
  | .tooDeep _ | .exhausted _ => "E202"
  | .badTarget => "E203"

def message : Fault → String
  | .strayCharacter c => "unexpected character: " ++ Text.quoted (String.ofList [c])
  | .openString _ => "unterminated string literal"
  | .leadingZero => "redundant leading zero in number literal"
  | .unexpected wanted found => "expected " ++ wanted.describe ++ ", found " ++ found.describe
  | .tooDeep limit => "nesting too deep (limit is " ++ limit ++ ")"
  | .exhausted _ => "nesting too deep for the interpreter stack"
  | .badTarget => "invalid assignment target"

def notes : Fault → List String
  | .strayCharacter c => if c == '\t' then ["only spaces may separate tokens"] else []
  | .openString quote => ["string opened with " ++ String.ofList [quote] ++ " is never closed"]
  | .unexpected wanted found => wanted.notes found.kind
  | .exhausted limit => ["lower max_depth (currently " ++ limit ++ ")"]
  | .badTarget =>
    ["only a variable, a member access, an index expression or a tuple of variables can be " ++
      "assigned"]
  | _ => []

end Fault

structure Failure where
  fault : Fault
  span : Span
deriving DecidableEq, Repr

namespace Failure

def describe (file : String) (failure : Failure) : String :=
  failure.span.label file ++ ": " ++ failure.fault.stage.describe ++ " error: " ++
    failure.fault.message

end Failure

end Parlance
