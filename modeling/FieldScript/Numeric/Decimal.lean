import FieldScript.Numeric.Parts

/-!
# Writing decimals

A decimal is a run of digits and the place of the point in it, which may lie before the first digit
or after the last. It is written in full. No zero ends the digits after the point, and no point
stands at the end.
-/

namespace FieldScript.Numeric

/-- The number `0.d₁d₂… * 10 ^ point`. -/
structure Decimal where
  digits : List Char
  point : Int
  deriving DecidableEq, Repr

namespace Decimal

def dropZeros (digits : List Char) : List Char :=
  (digits.reverse.dropWhile (· = '0')).reverse

def ofScaled (n : Nat) (scale : Int) : Decimal :=
  let digits := Nat.toDigits 10 n
  ⟨dropZeros digits, digits.length + scale⟩

def withPoint (whole fraction : List Char) : List Char :=
  if fraction.isEmpty then whole else whole ++ '.' :: fraction

def positional (a : Decimal) : List Char :=
  if a.point ≤ 0 then
    withPoint ['0'] (List.replicate (-a.point).toNat '0' ++ a.digits)
  else
    let places := a.point.toNat
    withPoint (a.digits.take places ++ List.replicate (places - a.digits.length) '0')
      (a.digits.drop places)

end Decimal

/-- The place of the leading digit of the positive fraction `num / den`, counted from the ones. -/
def leadingPlace (num den : Nat) : Int :=
  let place : Int := (Nat.toDigits 10 num).length - (Nat.toDigits 10 den).length
  if den * Nat.pow 10 place.toNat ≤ num * Nat.pow 10 (-place).toNat then place else place - 1

/-- The fraction `num / den` divided by `10 ^ scale`, as a numerator and a denominator. -/
def unscale (num den : Nat) (scale : Int) : Nat × Nat :=
  (num * Nat.pow 10 (-scale).toNat, den * Nat.pow 10 scale.toNat)

def withSign (negative : Bool) (text : List Char) : List Char :=
  if negative then '-' :: text else text

end FieldScript.Numeric
