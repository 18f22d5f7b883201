import FieldScript.Numeric.Decimal

/-!
# Shortest digits

The fewest decimal digits from which a float reads back. On each grid of decimals only the two
neighbours of the value have to be tried; when both read back the nearer one is taken, and the upper
one of a tie.
-/

namespace FieldScript.Numeric

def digitLimit : Nat := 17

/-- The neighbour of a positive size that reads back, among decimals of `count` digits with their
leading digit at `place`. -/
def readBack? (a : Size) (place : Int) (count : Nat) : Option Decimal :=
  let scale := place - (count - 1)
  let (num, den) := unscale a.num a.den scale
  let reads (n : Nat) : Bool := Float.ofScientific n (scale < 0) scale.natAbs = nearest false a
  let low := num / den
  let upper := if reads (low + 1) then some (Decimal.ofScaled (low + 1) scale) else none
  if reads low then
    if den ≤ 2 * (num % den) then some (upper.getD (Decimal.ofScaled low scale))
    else some (Decimal.ofScaled low scale)
  else upper

/-- The first grid with a decimal that reads back. -/
def shortestSize (a : Size) : Decimal :=
  let place := leadingPlace a.num a.den
  ((List.range' 1 digitLimit).findSome? (readBack? a place)).getD ⟨['0'], 1⟩

def shortest (x : Float) : List Char :=
  match parts x with
  | .nan => ['N', 'a', 'N']
  | .infinite negative => withSign negative ['i', 'n', 'f']
  | .finite negative a =>
    withSign negative (if a.mantissa = 0 then ['0'] else (shortestSize a).positional)

end FieldScript.Numeric
