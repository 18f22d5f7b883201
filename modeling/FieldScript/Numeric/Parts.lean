/-!
# The exact value of a float

A finite float is a sign and a size, a natural number times a power of two. Rounding a size to the
nearest float inverts the reading, and the remainder of two floats is computed on sizes, where it is
exact.
-/

namespace FieldScript.Numeric

/-- The size `mantissa * 2 ^ exponent`. -/
structure Size where
  mantissa : Nat
  exponent : Int
  deriving DecidableEq, Repr

namespace Size

def num (a : Size) : Nat := a.mantissa * Nat.pow 2 a.exponent.toNat

def den (a : Size) : Nat := Nat.pow 2 (-a.exponent).toNat

theorem den_pos (a : Size) : 0 < a.den := Nat.two_pow_pos _

def truncate (a : Size) : Nat := a.num / a.den

def isWhole (a : Size) : Bool := a.num % a.den = 0

/-- What is left of `a` after taking `b` away as often as it goes in. -/
def remainder (a b : Size) : Size :=
  let unit := min a.exponent b.exponent
  ⟨a.mantissa * Nat.pow 2 (a.exponent - unit).toNat %
    (b.mantissa * Nat.pow 2 (b.exponent - unit).toNat), unit⟩

end Size

inductive Parts where
  | nan
  | infinite (negative : Bool)
  | finite (negative : Bool) (size : Size)
  deriving DecidableEq, Repr

def isNegative : Float.Model.UnpackedFloat.Sign → Bool
  | .negative => true
  | .positive => false

/-- A float taken apart; both zeros have size zero. -/
def parts (x : Float) : Parts :=
  match x.toModel.unpack with
  | .notANumber => .nan
  | .infinity sign => .infinite (isNegative sign)
  | .zero sign => .finite (isNegative sign) ⟨0, 0⟩
  | .finite sign mantissa exponent _ => .finite (isNegative sign) ⟨mantissa, exponent⟩

def nan : Float := .ofModel (.pack .notANumber)

def nearest (negative : Bool) (a : Size) : Float :=
  let sign : Float.Model.UnpackedFloat.Sign := if negative then .negative else .positive
  .ofModel (.pack
    (if a.mantissa = 0 then .zero sign
      else Float.Model.UnpackedFloat.round .binary64 sign a.mantissa a.exponent))

def ofInt (n : Int) : Float := .ofModel (.ofInt n)

/-- The exact remainder with the sign of the dividend; it is not a number when the dividend is
infinite or the divisor zero. -/
def remainder (x y : Float) : Float :=
  match parts x, parts y with
  | .finite negative a, .finite _ b =>
    if b.mantissa = 0 then nan else nearest negative (a.remainder b)
  | .finite .., .infinite _ => x
  | _, _ => nan

end FieldScript.Numeric
