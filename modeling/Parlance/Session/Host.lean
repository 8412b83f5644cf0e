import Parlance.Text.Hex

/-!
Contract: which hosts can stand in an address.

A host is free text, with two exceptions. Square brackets hold a number of the long kind or of a
kind yet to come, and nothing but a user stands before them and nothing but a port behind. Outside
ASCII a character may not be one that stands for a sign which divides addresses. Owns: both tests.
Does not own: where the host stands in an address, nor what it is used for. Embeds what `to_fs_path`
demands of a host.
-/

namespace Parlance.Session.Host

def pieces (mark : Char) : List Char → List (List Char)
  | [] => [[]]
  | c :: rest =>
    if c == mark then [] :: pieces mark rest
    else
      match pieces mark rest with
      | [] => [[c]]
      | piece :: following => (c :: piece) :: following

def isByte (text : List Char) : Bool :=
  let value := text.foldl (fun value c => 10 * value + (c.toNat - '0'.toNat)) 0
  !text.isEmpty && text.all Char.isDigit && text.length ≤ 3 && value ≤ 255 &&
    (text == ['0'] || text.head? != some '0')

/-- Whether a text is a short number: four bytes with points between. -/
def isShort (text : List Char) : Bool :=
  let bytes := pieces '.' text
  bytes.length == 4 && bytes.all isByte

def isGroup (text : List Char) : Bool :=
  !text.isEmpty && text.length ≤ 4 && text.all fun c => (Text.hexValue? c).isSome

/-- The groups of a long number, of which the last two may be written as a short one. -/
def groups? (text : List Char) : Option (List (List Char)) :=
  let parts := pieces ':' text
  let last := parts.getLast?.getD []
  if parts.length < 3 then none
  else if last.contains '.' then
    if isShort last then some (parts.dropLast ++ [['0'], ['0']]) else none
  else some parts

/-- Whether groups, with one left out in the middle for a row of zeros, make up a long number. A
side of the gap may be empty, and then its end is, too. -/
def fillsWithGap (before : List (List Char)) (behind : List (List Char)) : Bool :=
  let before := if before == [[]] then [] else before
  let behind := if behind == [[]] then [] else behind
  before.all isGroup && behind.all isGroup && before.length + behind.length ≤ 7

/-- Whether groups make up a long number: eight of them, or fewer around one gap. -/
def areLong (groups : List (List Char)) : Bool :=
  let inner := groups.tail.dropLast
  if groups.length ≤ 9 then
    match inner.count [] with
    | 0 => groups.length == 8 && groups.all isGroup
    | 1 =>
      let place := (inner.takeWhile (!·.isEmpty)).length + 1
      fillsWithGap (groups.take place) (groups.drop (place + 1))
    | _ => false
  else false

/-- Whether a text is a long number, perhaps with the name of a zone behind a percent sign. -/
def isLong (text : List Char) : Bool :=
  let number := text.takeWhile (· != '%')
  let zone := text.dropWhile (· != '%')
  let zoned :=
    match zone with
    | [] => true
    | _ :: name => !name.isEmpty && !name.contains '%'
  zoned && match groups? number with
    | some groups => areLong groups
    | none => false

/-- Whether a text is a number of a kind yet to come: a letter, a version, a point and any text. -/
def isFuture (text : List Char) : Bool :=
  match text with
  | 'v' :: rest =>
    let version := rest.takeWhile fun c => (Text.hexValue? c).isSome
    match rest.drop version.length with
    | '.' :: _ :: _ => !version.isEmpty
    | _ => false
  | _ => false

def isNumber (text : List Char) : Bool :=
  if text.head? == some 'v' then isFuture text else isLong text

def withoutUser (host : List Char) : List Char :=
  (host.reverse.takeWhile (· != '@')).reverse

/-- Whether a text can follow a closing bracket: nothing, or a port behind a colon. -/
def isPort (text : List Char) : Bool :=
  text.isEmpty || text.head? == some ':'

/-- Whether the brackets of a host, if it has any, are a pair that holds a number. They begin the
host, and only a port follows them. If the name of a user holds all opening brackets, the host
itself has to be a number up to its port. -/
def hasSoundBrackets (host : List Char) : Bool :=
  match host.contains '[', host.contains ']' with
  | false, false => true
  | true, true =>
    match withoutUser host with
    | '[' :: rest =>
      isNumber (rest.takeWhile (· != ']')) && isPort (rest.dropWhile (· != ']')).tail
    | place => !place.contains '[' && isNumber (place.takeWhile (· != ':'))
  | _, _ => false

/-- The characters outside ASCII that stand for a slash, a question mark, a number sign, an at sign
or a colon, alone or among others. -/
def dividers : List Nat := [
  0x2047, 0x2048, 0x2049, 0x2100, 0x2101, 0x2105, 0x2106, 0x2A74, 0xFE13, 0xFE16, 0xFE55, 0xFE56,
  0xFE5F, 0xFE6B, 0xFF03, 0xFF0F, 0xFF1A, 0xFF1F, 0xFF20]

def isAdmitted (host : List Char) : Bool :=
  hasSoundBrackets host && !host.any fun c => dividers.contains c.toNat

end Parlance.Session.Host
