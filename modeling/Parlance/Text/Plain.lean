/-!
Contract: text without terminal control sequences.

A sequence is the escape character and an opening bracket, then parameters, then intermediates, of
either any number, and one final character. The three kinds are stretches of ASCII that do not
meet, so a sequence is told from its first character on. Anything else is left as it stands.
-/

namespace Parlance.Text

/-- The characters that come first behind the bracket of a control sequence: digits, the signs that
divide numbers, and private marks. -/
def isParameter (c : Char) : Bool :=
  '0' ≤ c && c ≤ '?'

/-- The characters that may stand before the final one of a control sequence. -/
def isIntermediate (c : Char) : Bool :=
  ' ' ≤ c && c ≤ '/'

/-- The characters that end a control sequence. -/
def isFinal (c : Char) : Bool :=
  '@' ≤ c && c ≤ '~'

/-- The length of the control sequence a text begins with, zero if it begins with none. -/
def controlLength : List Char → Nat
  | '\x1b' :: '[' :: rest =>
    let parameters := rest.takeWhile isParameter
    let behind := rest.dropWhile isParameter
    match behind.dropWhile isIntermediate with
    | last :: _ =>
      if isFinal last then parameters.length + (behind.takeWhile isIntermediate).length + 3
      else 0
    | [] => 0
  | _ => 0

/-- Drops the given number of characters, then every control sequence. -/
def dropControls : Nat → List Char → List Char
  | _, [] => []
  | skip + 1, _ :: rest => dropControls skip rest
  | 0, c :: rest =>
    match controlLength (c :: rest) with
    | 0 => c :: dropControls 0 rest
    | skip + 1 => dropControls skip rest

def plain (text : String) : String :=
  String.ofList (dropControls 0 text.toList)

end Parlance.Text
