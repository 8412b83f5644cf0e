/-!
Contract: decimal numbers, the binary numbers nearest to them, and their shortest texts.

A decimal number read from a text stands for the nearest binary number with 53 significant bits and
exponents from -1074 on, a tie going to the even one. It is shown by the fewest digits that
stand for the same binary number, and of several such by those nearest to it. Owns: both
directions, in whole numbers throughout.
-/

namespace Parlance

structure Decimal where
  negative : Bool
  digits : Nat
  exponent : Int
deriving DecidableEq, Repr

/-- The size of a binary number: a whole number times a power of two, or more than any of these. -/
inductive Binary where
  | finite (mantissa : Nat) (exponent : Int)
  | infinite
deriving DecidableEq, Repr

namespace Binary

/-- The quotient of two whole numbers, rounded to the nearest, a tie going to the even one. -/
def roundedQuotient (top : Nat) (bottom : Nat) : Nat :=
  let quotient := top / bottom
  let rest := 2 * (top % bottom)
  if rest < bottom || (rest == bottom && quotient % 2 == 0) then quotient else quotient + 1

/-- A fraction with a power of a base taken into it. -/
def scaled (base : Nat) (exponent : Int) (top : Nat) (bottom : Nat) : Nat × Nat :=
  if 0 ≤ exponent then (top * Nat.pow base exponent.toNat, bottom)
  else (top, bottom * Nat.pow base (-exponent).toNat)

/-- The least whole number with more than 53 bits. -/
def mantissaEnd : Nat := Nat.pow 2 53

/-- The binary number nearest to a fraction above zero. -/
def nearest (top : Nat) (bottom : Nat) : Binary :=
  let guess : Int := (Nat.log2 top : Int) - Nat.log2 bottom - 52
  let fits (exponent : Int) : Bool :=
    let (top, bottom) := scaled 2 (-exponent) top bottom
    decide (top < bottom * mantissaEnd)
  let exponent := max (if fits (guess - 1) then guess - 1 else guess) (-1074)
  let (top, bottom) := scaled 2 (-exponent) top bottom
  let mantissa := roundedQuotient top bottom
  let (mantissa, exponent) :=
    if mantissa == mantissaEnd then (mantissaEnd / 2, exponent + 1) else (mantissa, exponent)
  if 971 < exponent then .infinite else .finite mantissa exponent

def whole? : Binary → Option Nat
  | .finite mantissa exponent =>
    let (top, bottom) := scaled 2 exponent mantissa 1
    some (top / bottom)
  | .infinite => none

end Binary

namespace Decimal

def length (n : Nat) : Nat :=
  (Nat.toDigits 10 n).length

/-- The size of the binary number that a decimal number stands for. Sizes far outside the range are
told by their length. -/
def size (decimal : Decimal) : Binary :=
  let places := (length decimal.digits : Int) + decimal.exponent
  if decimal.digits == 0 || decide (places < -400) then .finite 0 0
  else if 400 < places then .infinite
  else
    let (top, bottom) := Binary.scaled 10 decimal.exponent decimal.digits 1
    Binary.nearest top bottom

/-- The power of ten that stands at the last of so many digits of a fraction, give or take one
place. -/
def lastPlace (count : Nat) (top : Nat) (bottom : Nat) : Int :=
  (length top : Int) - length bottom - count

/-- The decimal number of at most so many digits that stands for a fraction's binary number, the
nearer one if there are two, and of two equally near the even one. -/
def shorter? (target : Binary) (count : Nat) (top : Nat) (bottom : Nat) : Option (Nat × Int) :=
  let attempt (place : Int) : Option (Nat × Int) :=
    let (top, bottom) := Binary.scaled 10 (-place) top bottom
    let low := top / bottom
    let readsBack (digits : Nat) : Bool :=
      decide (digits ≤ Nat.pow 10 count) && (⟨false, digits, place⟩ : Decimal).size == target
    let high := low + 1
    if readsBack low then
      if readsBack high && Binary.roundedQuotient top bottom == high then some (high, place)
      else some (low, place)
    else if readsBack high then some (high, place)
    else none
  match attempt (lastPlace count top bottom) with
  | some found => some found
  | none => attempt (lastPlace count top bottom + 1)

/-- The fewest digits that stand for a binary number above zero, and the place of the last. -/
def shortest (mantissa : Nat) (exponent : Int) : Nat × Int :=
  let (top, bottom) := Binary.scaled 2 exponent mantissa 1
  ((List.range 17).findSome? fun count =>
    shorter? (.finite mantissa exponent) (count + 1) top bottom).getD (top / bottom, 0)

/-- Digits without the zeros at their end, and the place of the last. -/
def trimmed : Nat → Nat → Int → Nat × Int
  | 0, digits, place => (digits, place)
  | fuel + 1, digits, place =>
    if digits % 10 == 0 && digits != 0 then trimmed fuel (digits / 10) (place + 1)
    else (digits, place)

/-- The digits of a decimal number as it is shown, and the place of the last. -/
def shown? (decimal : Decimal) : Option (Nat × Int) :=
  match decimal.size with
  | .infinite => none
  | .finite 0 _ => some (0, 0)
  | .finite mantissa exponent =>
    let (digits, place) := shortest mantissa exponent
    some (trimmed (length digits) digits place)

def pointed (digits : List Char) (behind : Nat) : String :=
  let padded := List.replicate (behind + 1 - digits.length) '0' ++ digits
  String.ofList (padded.take (padded.length - behind)) ++ "." ++
    String.ofList (padded.drop (padded.length - behind))

/-- The text of digits whose last stands at the given place. The point is written out from the
fourth place behind it to the sixteenth before it, and otherwise an exponent of at least two
digits stands in its stead. -/
def written (digits : Nat) (place : Int) : String :=
  let chars := Nat.toDigits 10 digits
  let first := place + chars.length
  if -4 < first && first ≤ 16 then
    if 0 ≤ place then String.ofList (chars ++ List.replicate place.toNat '0') ++ ".0"
    else pointed chars (-place).toNat
  else
    let power := first - 1
    let size := toString power.natAbs
    let mantissa :=
      match chars with
      | [only] => String.ofList [only]
      | _ => pointed chars (chars.length - 1)
    mantissa ++ "e" ++ (if 0 ≤ power then "+" else "-") ++
      (if size.length < 2 then "0" ++ size else size)

def text (decimal : Decimal) : String :=
  (if decimal.negative then "-" else "") ++
    match decimal.shown? with
    | some (digits, place) => written digits place
    | none => "inf"

end Decimal

end Parlance
