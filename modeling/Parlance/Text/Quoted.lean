import Parlance.Text.Printable

/-!
Contract: text in quotes, as messages and listings show it.

Owns: the choice of the quote, the escapes, and the fixed-width code point numbers. Every character
of the text is written on its own, so the written form of a text is the quote, the written
characters in order, and the quote again.
-/

namespace Parlance.Text.Quoted

/-- The last `width` hexadecimal digits of a number, most significant first. -/
def hexDigits : Nat → Nat → List Char
  | 0, _ => []
  | width + 1, n => hexDigits width (n / 16) ++ [Nat.digitChar (n % 16)]

/-- Single quotes, unless the text holds a single quote and no double quote. -/
def quoteFor (text : List Char) : Char :=
  if text.contains '\x27' && !text.contains '\x22' then '\x22' else '\x27'

/-- A character outside the printable set, by its number in the shortest of three widths. -/
def numbered (c : Char) : List Char :=
  let n := c.toNat
  if n ≤ 0xFF then '\\' :: 'x' :: hexDigits 2 n
  else if n ≤ 0xFFFF then '\\' :: 'u' :: hexDigits 4 n
  else '\\' :: 'U' :: hexDigits 8 n

/-- One character between quotes: the quote and the backslash are escaped, three controls have
short names, and what is not printable is shown by number. -/
def escape (quote : Char) (c : Char) : List Char :=
  if c == quote || c == '\\' then ['\\', c]
  else if c == '\n' then ['\\', 'n']
  else if c == '\r' then ['\\', 'r']
  else if c == '\t' then ['\\', 't']
  else if isPrintable c then [c]
  else numbered c

def encode (text : List Char) : List Char :=
  quoteFor text :: text.flatMap (escape (quoteFor text)) ++ [quoteFor text]

end Parlance.Text.Quoted

namespace Parlance.Text

def quoted (text : String) : String :=
  String.ofList (Quoted.encode text.toList)

def quotedList (texts : List String) : String :=
  "[" ++ ", ".intercalate (texts.map quoted) ++ "]"

end Parlance.Text
