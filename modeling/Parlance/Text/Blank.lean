import Parlance.Text.Stripes

/-!
Contract: which characters count as white space to an editor.

The table lists the Unicode 14.0 separators together with the ASCII controls that move the print
position.
-/

namespace Parlance.Text

def blankStripes : Stripes := [
  9, 5, 14, 5, 100, 1, 26, 1, 5599, 1, 2431, 11, 29, 2, 5, 1, 47, 1, 4000, 1]

def isBlank (c : Char) : Bool :=
  blankStripes.contains c.toNat

end Parlance.Text
