import FieldScript.Numeric.Decimal

/-!
# Display of floats

Whole numbers below a fixed limit are written in full, without a sign on zero. Any other finite
float has its exact value rounded to six significant digits, a tie to the even digit. These digits
are written with an exponent, unless the first of them lies between the fourth decimal and the sixth
whole place. There the exact value is rounded a second time, to as many decimals as six digits
leave, and written in full. Either way no zero ends the digits after the point, and no point stands
at the end.
-/

namespace FieldScript.Numeric

/-- A quotient rounded to the nearest natural number, a tie to the even one. -/
def roundEven (num den : Nat) : Nat :=
  let low := num / den
  match compare (2 * (num % den)) den with
  | .lt => low
  | .gt => low + 1
  | .eq => if low % 2 = 0 then low else low + 1

def displayDigits : Nat := 6

/-- Whole numbers are written in full below this limit. -/
def wholeLimit : Nat := 1000000000000000

/-- A positive fraction rounded to six significant digits: those digits, and the place of the first.
Rounding up to the next power of ten moves that place by one. -/
def significant (num den : Nat) : Nat × Int :=
  let place := leadingPlace num den
  let (num, den) := unscale num den (place - (displayDigits - 1))
  let digits := roundEven num den
  if digits = Nat.pow 10 displayDigits then (Nat.pow 10 (displayDigits - 1), place + 1)
  else (digits, place)

/-- The digits of a number, with zeros in front so that more than `decimals` digits are there. -/
def padded (n decimals : Nat) : List Char :=
  let digits := Nat.toDigits 10 n
  List.replicate (decimals + 1 - digits.length) '0' ++ digits

def withDecimals (n decimals : Nat) : List Char :=
  let digits := padded n decimals
  let places := digits.length - decimals
  Decimal.withPoint (digits.take places) (digits.drop places)

def fixed (num den decimals : Nat) : List Char :=
  withDecimals (roundEven (num * Nat.pow 10 decimals) den) decimals

/-- Without the zeros at the end and the point in front of them; a text without a point keeps its
zeros. -/
def trimFraction (text : List Char) : List Char :=
  if '.' ∈ text then
    let trimmed := Decimal.dropZeros text
    if trimmed.getLast? = some '.' then trimmed.dropLast else trimmed
  else text

def exponentText (exponent : Int) : List Char :=
  'e' :: (if exponent < 0 then '-' else '+') :: padded exponent.natAbs 1

def displaySize (a : Size) : List Char :=
  let (digits, exponent) := significant a.num a.den
  if exponent < -4 ∨ displayDigits ≤ exponent then
    trimFraction (withDecimals digits (displayDigits - 1)) ++ exponentText exponent
  else trimFraction (fixed a.num a.den (displayDigits - 1 - exponent).toNat)

def display (x : Float) : List Char :=
  match parts x with
  | .nan => ['n', 'a', 'n']
  | .infinite negative => withSign negative ['i', 'n', 'f']
  | .finite negative a =>
    if a.isWhole ∧ a.truncate < wholeLimit then
      withSign (negative ∧ a.truncate ≠ 0) (Nat.toDigits 10 a.truncate)
    else withSign negative (displaySize a)

end FieldScript.Numeric
