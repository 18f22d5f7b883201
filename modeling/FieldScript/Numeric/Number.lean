import FieldScript.Numeric.Parts

/-!
# Numbers

A number is a 64-bit integer or a float. An integer result that does not fit 64 bits has no integer
form; what happens then is up to the operation.
-/

namespace FieldScript

inductive Number where
  | int (n : Int64)
  | float (x : Float)
  deriving DecidableEq, Repr

namespace Number

/-- One more than the largest 64-bit integer, and the opposite of the least. -/
def bound : Int := 9223372036854775808

def fit (n : Int) : Option Int64 :=
  if -bound ≤ n ∧ n < bound then some (Int64.ofInt n) else none

theorem toInt_of_fit {n : Int} {w : Int64} (h : fit n = some w) : w.toInt = n := by
  rw [fit] at h
  split at h
  · next range =>
    simp only [Option.some.injEq] at h
    subst h
    exact Int64.toInt_ofInt_of_le range.1 range.2
  · simp at h

theorem fit_toInt (n : Int64) : fit n.toInt = some n := by
  rw [fit, if_pos ⟨n.le_toInt, n.toInt_lt⟩, Int64.ofInt_toInt]

theorem fit_eq_none_iff {n : Int} : fit n = none ↔ ¬(-bound ≤ n ∧ n < bound) := by
  simp [fit]

def toFloat : Number → Float
  | int n => Numeric.ofInt n.toInt
  | float x => x

end Number

end FieldScript
