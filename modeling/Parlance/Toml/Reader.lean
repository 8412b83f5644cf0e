import Parlance.Text.Digit
import Parlance.Text.Hex
import Parlance.Toml

/-!
Contract: keys and values of a TOML document as they are written.

A reader takes characters from the front of a text or fails. Owns: blanks, comments, strings,
numbers, moments, arrays, inline tables and keys. Arrays and inline tables nest; the number of
characters bounds how often a reader starts again.
-/

namespace Parlance.Toml

abbrev Reader := StateT (List Char) (Except Fault)

namespace Reader

def reject {α : Type} : Reader α :=
  fun _ => .error .malformed

def peek : Reader (Option Char) :=
  fun text => .ok (text.head?, text)

def next : Reader Char
  | [] => .error .malformed
  | c :: rest => .ok (c, rest)

def run (inClass : Char → Bool) : Reader (List Char) :=
  fun text => .ok (text.takeWhile inClass, text.dropWhile inClass)

/-- Takes a given text if it comes next, and tells whether it did. -/
def accept (wanted : String) : Reader Bool :=
  fun text =>
    if wanted.toList.isPrefixOf text then .ok (true, text.drop wanted.toList.length)
    else .ok (false, text)

def expect (wanted : String) : Reader Unit := do
  if ← accept wanted then return () else reject

def isBlankInLine (c : Char) : Bool :=
  c == ' ' || c == '\t'

def isBlankInArray (c : Char) : Bool :=
  isBlankInLine c || c == '\n'

def isControl (c : Char) : Bool :=
  (decide (c.toNat < 32) || c.toNat == 127) && c != '\t'

def blanks : Reader Unit := do
  let _ ← run isBlankInLine
  return ()

/-- Takes a comment up to the end of its line, if one comes next. -/
def comment : Reader Unit := do
  if ← accept "#" then
    let text ← run (· != '\n')
    if text.any isControl then reject else return ()
  else return ()

def gaps : Nat → Reader Unit
  | 0 => return ()
  | fuel + 1 => do
      let _ ← run isBlankInArray
      if (← peek) == some '#' then
        comment
        gaps fuel
      else return ()

def hexDigits : Nat → Nat → Reader Nat
  | 0, value => return value
  | count + 1, value => do
      match Text.hexValue? (← next) with
      | some digit => hexDigits count (16 * value + digit)
      | none => reject

/-- Takes the number of a character, which may not be a surrogate. -/
def character (digits : Nat) : Reader (List Char) := do
  let value ← hexDigits digits 0
  if Nat.isValidChar value then return [Char.ofNat value] else reject

/-- Takes the rest of a line that a backslash ends, and the blanks of the following lines. -/
def joinedLines (first : Char) : Reader (List Char) := do
  if first != '\n' then
    blanks
    match ← peek with
    | none => return []
    | some _ => expect "\n"
  let _ ← run isBlankInArray
  return []

def escape (multiline : Bool) : Reader (List Char) := do
  match ← next with
  | 'b' => return ['\x08']
  | 't' => return ['\t']
  | 'n' => return ['\n']
  | 'f' => return ['\x0c']
  | 'r' => return ['\r']
  | '\x22' => return ['\x22']
  | '\\' => return ['\\']
  | 'u' => character 4
  | 'U' => character 8
  | c => if multiline && isBlankInArray c then joinedLines c else reject

/-- Takes a string with escapes up to and including its closing quote. -/
def basicString : Nat → List Char → Reader String
  | 0, _ => reject
  | fuel + 1, done => do
      match ← next with
      | '\x22' => return String.ofList done.reverse
      | '\\' => do
          let piece ← escape false
          basicString fuel (piece.reverse ++ done)
      | c => if isControl c then reject else basicString fuel (c :: done)

def extraQuotes (quote : String) : Reader String := do
  if ← accept quote then
    if ← accept quote then return quote ++ quote else return quote
  else return ""

/-- Takes a string with escapes and line breaks up to and including its three closing quotes. -/
def longString : Nat → List Char → Reader String
  | 0, _ => reject
  | fuel + 1, done => do
      if ← accept "\"\"\"" then return String.ofList done.reverse ++ (← extraQuotes "\"")
      else
        match ← next with
        | '\\' => do
            let piece ← escape true
            longString fuel (piece.reverse ++ done)
        | c => if isControl c && c != '\n' then reject else longString fuel (c :: done)

/-- Takes a string without escapes up to and including its closing quote. -/
def literalString : Reader String := do
  let text ← run (· != '\x27')
  expect "'"
  if text.any isControl then reject else return String.ofList text

/-- Takes a string without escapes, with line breaks, up to and including its three closing
quotes. -/
def longLiteral : Nat → List Char → Reader String
  | 0, _ => reject
  | fuel + 1, done => do
      if ← accept "'''" then return String.ofList done.reverse ++ (← extraQuotes "'")
      else
        let c ← next
        if isControl c && c != '\n' then reject else longLiteral fuel (c :: done)

def digitRun (inClass : Char → Bool) : Nat → List Char → List Char → List Char × List Char
  | 0, done, text => (done.reverse, text)
  | fuel + 1, done, text =>
    match text with
    | '_' :: c :: rest =>
      if inClass c && !done.isEmpty then digitRun inClass fuel (c :: done) rest
      else (done.reverse, text)
    | c :: rest =>
      if inClass c then digitRun inClass fuel (c :: done) rest else (done.reverse, text)
    | [] => (done.reverse, text)

/-- Takes digits of a class in which a single underscore may stand between two. -/
def digits (inClass : Char → Bool) : Reader (List Char) :=
  fun text => .ok (digitRun inClass text.length [] text)

def number (base : Nat) (digits : List Char) : Nat :=
  digits.foldl (fun value c => base * value + (Text.hexValue? c).getD 0) 0

/-- Takes a whole number in another base behind a zero and a letter, if one stands here. -/
def based? : Reader (Option Nat) :=
  fun text =>
    let found (base : Nat) (inClass : Char → Bool) (rest : List Char) :
        Except Fault (Option Nat × List Char) :=
      match digitRun inClass rest.length [] rest with
      | ([], _) => .ok (none, text)
      | (digits, rest) => .ok (some (number base digits), rest)
    match text with
    | '0' :: 'x' :: rest => found 16 (fun c => (Text.hexValue? c).isSome) rest
    | '0' :: 'b' :: rest => found 2 (fun c => c == '0' || c == '1') rest
    | '0' :: 'o' :: rest => found 8 (fun c => '0' ≤ c && c ≤ '7') rest
    | _ => .ok (none, text)

def sign : Reader Bool := do
  if ← accept "-" then return true
  else
    let _ ← accept "+"
    return false

/-- Takes the whole part of a number. It has no further digit behind a leading zero. -/
def wholePart : Reader (List Char) := do
  if ← accept "0" then return ['0']
  else
    match ← digits Char.isDigit with
    | [] => reject
    | found => return found

/-- Takes a point and the digits behind it, if both stand here. -/
def fraction : Reader (List Char) :=
  fun text =>
    match text with
    | '.' :: c :: _ =>
      if c.isDigit then digits Char.isDigit text.tail else .ok ([], text)
    | _ => .ok ([], text)

def exponent? : Reader (Option Int) :=
  fun text =>
    match text with
    | mark :: rest =>
      if mark == 'e' || mark == 'E' then
        match sign rest with
        | .ok (negative, rest) =>
          match digitRun Char.isDigit rest.length [] rest with
          | ([], _) => .ok (none, text)
          | (found, rest) =>
            let size : Int := number 10 found
            .ok (some (if negative then -size else size), rest)
        | .error fault => .error fault
      else .ok (none, text)
    | [] => .ok (none, text)

def numeric : Reader Value := do
  match ← based? with
  | some value => return .integer value
  | none =>
    let negative ← sign
    let whole ← wholePart
    let behindPoint ← fraction
    match behindPoint, ← exponent? with
    | [], none =>
      if Text.digitLimit < whole.length then throw .tooManyDigits
      else
        let size : Int := number 10 whole
        return .integer (if negative then -size else size)
    | _, exponent =>
      return .decimal
        ⟨negative, number 10 (whole ++ behindPoint),
          exponent.getD 0 - behindPoint.length⟩

/-- Takes the name of what is no finite number, if one stands here. -/
def special? : Reader (Option Value) := do
  if ← accept "inf" then return some (.infinite false)
  else if ← accept "+inf" then return some (.infinite false)
  else if ← accept "-inf" then return some (.infinite true)
  else if ← accept "nan" then return some .undefined
  else if ← accept "+nan" then return some .undefined
  else if ← accept "-nan" then return some .undefined
  else return none

/-- Two digits as a number, if they stand for one in a range. -/
def pair? (low : Nat) (high : Nat) (tens : Char) (ones : Char) : Option Nat :=
  if tens.isDigit && ones.isDigit then
    let value := number 10 [tens, ones]
    if low ≤ value && value ≤ high then some value else none
  else none

/-- The time of day that a text begins with, and the rest of it. Digits of a second behind the sixth
are left out. -/
def clock? : List Char → Option (Clock × List Char)
  | h1 :: h2 :: ':' :: m1 :: m2 :: ':' :: s1 :: s2 :: rest => do
      let hour ← pair? 0 23 h1 h2
      let minute ← pair? 0 59 m1 m2
      let second ← pair? 0 59 s1 s2
      match rest with
      | '.' :: behind =>
        let digits := behind.takeWhile Char.isDigit
        if digits.isEmpty then return (⟨hour, minute, second, 0⟩, rest)
        else
          let padded := (digits ++ List.replicate 6 '0').take 6
          return (⟨hour, minute, second, number 10 padded⟩, behind.dropWhile Char.isDigit)
      | _ => return (⟨hour, minute, second, 0⟩, rest)
  | _ => none

/-- The distance to universal time that a text begins with, if it does, and the rest of it. -/
def ahead : List Char → Option Int × List Char
  | 'Z' :: rest | 'z' :: rest => (some 0, rest)
  | mark :: h1 :: h2 :: ':' :: m1 :: m2 :: rest =>
    let text := mark :: h1 :: h2 :: ':' :: m1 :: m2 :: rest
    match pair? 0 23 h1 h2, pair? 0 59 m1 m2 with
    | some hours, some minutes =>
      let distance : Int := 60 * hours + minutes
      if mark == '+' then (some distance, rest)
      else if mark == '-' then (some (-distance), rest)
      else (none, text)
    | _, _ => (none, text)
  | text => (none, text)

/-- The date that a text begins with, which there need not be, and the rest of it. -/
def date? : List Char → Option (Date × List Char)
  | y1 :: y2 :: y3 :: y4 :: '-' :: m1 :: m2 :: '-' :: d1 :: d2 :: rest =>
    if [y1, y2, y3, y4].all Char.isDigit then do
      let month ← pair? 1 12 m1 m2
      let day ← pair? 1 31 d1 d2
      return (⟨number 10 [y1, y2, y3, y4], month, day⟩, rest)
    else none
  | _ => none

/-- The moment on a date that a text behind the date goes on with, and the rest of it. -/
def onDate (date : Date) (text : List Char) : Moment × List Char :=
  match text with
  | mark :: rest =>
    if mark == 'T' || mark == 't' || mark == ' ' then
      match clock? rest with
      | some (clock, rest) =>
        let (ahead, rest) := ahead rest
        (.dateTime date clock ahead, rest)
      | none => (.date date, text)
    else (.date date, text)
  | [] => (.date date, text)

/-- Takes a moment, if one stands here. Its date has to be a real one. -/
def moment? : Reader (Option Value) :=
  fun text =>
    match date? text with
    | some (date, rest) =>
      if date.isReal then
        let (moment, rest) := onDate date rest
        .ok (some (.moment moment), rest)
      else .error .malformed
    | none =>
      match clock? text with
      | some (clock, rest) => .ok (some (.moment (.time clock)), rest)
      | none => .ok (none, text)

def measure : Reader Value := do
  match ← moment? with
  | some found => return found
  | none =>
    match ← special? with
    | some found => return found
    | none => numeric

def isKeyChar (c : Char) : Bool :=
  c.isAlphanum || c == '-' || c == '_'

def keyPart : Reader String := do
  match ← run isKeyChar with
  | [] =>
    if ← accept "\"" then
      fun text => basicString (text.length + 1) [] text
    else if ← accept "'" then literalString
    else reject
  | found => return String.ofList found

def keyParts : Nat → List String → Reader (List String)
  | 0, _ => reject
  | fuel + 1, done => do
      blanks
      if ← accept "." then
        blanks
        let part ← keyPart
        keyParts fuel (done ++ [part])
      else return done

def key : Reader (List String) := do
  let first ← keyPart
  fun text => keyParts (text.length + 1) [first] text

def stringValue (quote : String) (short : Nat → Reader String)
    (long : Nat → Reader String) : Reader Value := do
  if ← accept (quote ++ quote ++ quote) then
    let _ ← accept "\n"
    return .string (← fun text => long (text.length + 1) text)
  else
    expect quote
    return .string (← fun text => short (text.length + 1) text)

/-- Takes a key, the sign between and a value. -/
def assignment (value : Reader Value) : Reader (List String × Value) := do
  let found ← key
  expect "="
  blanks
  return (found, ← value)

def arrayGaps : Reader Unit :=
  fun text => gaps (text.length + 1) text

def arrayItems (value : Reader Value) : Nat → List Value → Reader Value
  | 0, _ => reject
  | fuel + 1, done => do
      if ← accept "]" then return .array done
      else
        let item ← value
        arrayGaps
        if ← accept "]" then return .array (done ++ [item])
        else
          expect ","
          arrayGaps
          arrayItems value fuel (done ++ [item])

/-- Whether a value may not be changed once it is written. -/
def isClosed : Value → Bool
  | .array _ | .table _ => true
  | _ => false

/-- Takes the rows of an inline table up to and including the closing brace. The keys of closed
values are collected, since nothing can be added to those. -/
def tableRows (value : Reader Value) : Nat → Table → List (List String) → Reader Value
  | 0, _, _ => reject
  | fuel + 1, table, closed => do
      let (path, item) ← assignment value
      if closed.any (·.isPrefixOf path) then reject
      else
        let last := path.getLast?.getD ""
        match Table.modify false (Table.addNew last item) path.dropLast table with
        | none => reject
        | some table =>
          blanks
          if ← accept "\x7d" then return .table table
          else
            expect ","
            blanks
            tableRows value fuel table (if isClosed item then path :: closed else closed)

/-- Takes a value. The fuel bounds how deep arrays and inline tables nest. -/
def value : Nat → Reader Value
  | 0 => reject
  | fuel + 1 => do
      match ← peek with
      | some '\x22' =>
        stringValue "\"" (fun fuel => basicString fuel []) (fun fuel => longString fuel [])
      | some '\x27' =>
        stringValue "'" (fun _ => literalString) (fun fuel => longLiteral fuel [])
      | some 't' => do
          expect "true"
          return .boolean true
      | some 'f' => do
          expect "false"
          return .boolean false
      | some '[' => do
          expect "["
          arrayGaps
          fun text => arrayItems (value fuel) (text.length + 1) [] text
      | some '\x7b' => do
          expect "\x7b"
          blanks
          if ← accept "\x7d" then return .table []
          else fun text => tableRows (value fuel) (text.length + 1) [] [] text
      | _ => measure

end Reader

end Parlance.Toml
