import Parlance.Session.Host

/-!
Contract: the file that a document's address names.

An address with the scheme for files holds a host, a path, a query and a fragment, of which any may
be missing; percent signs introduce bytes of UTF-8. Owns: the taking apart of an address and the
decoding of its parts. Does not own: where the path leads. Embeds `to_fs_path`.
-/

namespace Parlance.Session.Uri

def utf8 (c : Char) : List Nat :=
  (String.ofList [c]).toUTF8.toList.map UInt8.toNat

/-- The bytes that a text stands for. A percent sign without two digits stands for itself. -/
def bytes : List Char → List Nat
  | '%' :: high :: low :: rest =>
    match Text.hexValue? high, Text.hexValue? low with
    | some high, some low => (16 * high + low) :: bytes rest
    | _, _ => '%'.toNat :: bytes (high :: low :: rest)
  | c :: rest => utf8 c ++ bytes rest
  | [] => []

/-- The ranges of the bytes behind the first byte of a character, if it can be one. The second byte
is bounded so that no character has two forms and none is a surrogate. -/
def tailRanges? (byte : Nat) : Option (List (Nat × Nat)) :=
  let any := (0x80, 0xBF)
  if byte < 0x80 then some []
  else if byte < 0xC2 then none
  else if byte < 0xE0 then some [any]
  else if byte == 0xE0 then some [(0xA0, 0xBF), any]
  else if byte == 0xED then some [(0x80, 0x9F), any]
  else if byte < 0xF0 then some [any, any]
  else if byte == 0xF0 then some [(0x90, 0xBF), any, any]
  else if byte < 0xF4 then some [any, any, any]
  else if byte == 0xF4 then some [(0x80, 0x8F), any, any]
  else none

/-- The bytes that fill ranges from the front, as far as they do. -/
def filling : List (Nat × Nat) → List Nat → List Nat
  | (low, high) :: ranges, byte :: rest =>
    if low ≤ byte && byte ≤ high then byte :: filling ranges rest else []
  | _, _ => []

/-- The part of a first byte that belongs to the character's number. -/
def leading (byte : Nat) : Nat :=
  if byte < 0x80 then byte
  else if byte < 0xE0 then byte - 0xC0
  else if byte < 0xF0 then byte - 0xE0
  else byte - 0xF0

/-- The first character of a row of bytes, and how many bytes behind the first belong to it. Bytes
that begin a character and do not finish it give one replacement character. -/
def firstChar (byte : Nat) (rest : List Nat) : Char × Nat :=
  match tailRanges? byte with
  | none => ('\ufffd', 0)
  | some ranges =>
    let tail := filling ranges rest
    if tail.length == ranges.length then
      (Char.ofNat (tail.foldl (fun value byte => 64 * value + (byte - 0x80)) (leading byte)),
        tail.length)
    else ('\ufffd', tail.length)

/-- The characters of a row of bytes, behind those that belong to a character already found. -/
def decode : Nat → List Nat → List Char
  | _, [] => []
  | skip + 1, _ :: rest => decode skip rest
  | 0, byte :: rest =>
    let (c, behind) := firstChar byte rest
    c :: decode behind rest

def unescape (text : List Char) : List Char :=
  decode 0 (bytes text)

def endsHost (c : Char) : Bool :=
  c == '/' || c == '?' || c == '#'

def endsPath (c : Char) : Bool :=
  c == '?' || c == '#'

def isIgnored (c : Char) : Bool :=
  c == '\t' || c == '\r' || c == '\n'

/-- The host and the rest of an address behind its scheme. A host stands behind two slashes. -/
def splitHost : List Char → List Char × List Char
  | '/' :: '/' :: rest => (rest.takeWhile (!endsHost ·), rest.dropWhile (!endsHost ·))
  | rest => ([], rest)

/-- The path that a host and the rest of an address name. A host stands before the path behind two
slashes, and a drive letter loses the slash before it. -/
def pathOf (host : List Char) (rest : List Char) : List Char :=
  let host := unescape host
  let path := unescape (rest.takeWhile (!endsPath ·))
  if host.isEmpty || path.isEmpty then
    match path with
    | '/' :: drive :: ':' :: rest => if drive.isAlpha then drive.toLower :: ':' :: rest else path
    | _ => path
  else '/' :: '/' :: (host ++ path)

inductive Target where
  /-- A file, by its written path. -/
  | file (path : String)
  /-- Something else than a file. -/
  | other
  /-- Nothing, because its host can be none. -/
  | malformed
deriving DecidableEq, Repr

def target (uri : String) : Target :=
  let scheme := "file:".toList
  if scheme.isPrefixOf uri.toList then
    let (host, rest) := splitHost ((uri.toList.drop scheme.length).filter (!isIgnored ·))
    if Host.isAdmitted host then .file (String.ofList (pathOf host rest)) else .malformed
  else .other

end Parlance.Session.Uri
