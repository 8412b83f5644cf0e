import Parlance.Text.Lines
import Parlance.Text.NameContinue

/-!
Contract: the word under a cursor.

Lines and characters count from zero. The cursor may stand on a character of the word or right
behind its last one. Owns: the cut of a line at a cursor and the name characters on both sides.
Embeds `_get_word_at`.
-/

namespace Parlance.Session

/-- The name characters on both sides of a place in a line. -/
def wordAround (line : List Char) (place : Nat) : List Char :=
  ((line.take place).reverse.takeWhile Text.isNameContinue).reverse ++
    (line.drop place).takeWhile Text.isNameContinue

/-- The place in a line that a cursor means. Behind the last character it means that character. -/
def placeIn? (line : List Char) (character : Int) : Option Nat :=
  if 0 ≤ character && character < line.length then some character.toNat
  else if 0 < character && character ≤ line.length then some (character.toNat - 1)
  else none

def wordAt (source : String) (line : Int) (character : Int) : String :=
  if line < 0 then ""
  else
    match (Text.lines source.toList)[line.toNat]? with
    | none => ""
    | some text =>
      match placeIn? text character with
      | some place => String.ofList (wordAround text place)
      | none => ""

end Parlance.Session
