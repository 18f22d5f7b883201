import FieldScript.Proofs.Numeric.Rounding
import FieldScript.Value.Arithmetic
import Mathlib

/-!
# Zero

Two floats are zero, one of each sign. An integer is rounded to neither of them unless it is zero
itself, since the float of any other has a mantissa of full width. So asking whether the float of a
number is zero finds the three zeros and no other number.
-/

namespace FieldScript

namespace Numeric

open Float.Model Float.Model.UnpackedFloat

theorem eq_zero_iff_unpack {x : Float} :
    (x == 0.0) = true ↔ ∃ sign, x.toModel.unpack = .zero sign := by
  have zero_eq : (0.0 : Float).toModel.unpack = .zero .positive := by rfl
  change (x.toModel.unpack.compare (0.0 : Float).toModel.unpack == some .eq) = true ↔ _
  rw [zero_eq]
  cases x.toModel.unpack with
  | notANumber => simp [UnpackedFloat.compare]
  | infinity sign => cases sign <;> simp [UnpackedFloat.compare]
  | zero sign => simp [UnpackedFloat.compare]
  | finite sign => cases sign <;> simp [UnpackedFloat.compare]

theorem eq_zero_iff (x : Float) : (x == 0.0) = true ↔ x = 0.0 ∨ x = -0.0 := by
  have zero_eq : (0.0 : Float) = 0 := by rfl
  have zero_ne_nan : (0 : Float) ≠ Float.nan := by decide +kernel
  have minus_ne_nan : (-0 : Float) ≠ Float.nan := by decide +kernel
  rw [Float.beq_iff_ne_nan_and_eq, zero_eq]
  constructor
  · rintro ⟨-, -, same | ⟨same, -⟩ | ⟨same, -⟩⟩
    · exact .inl same
    · exact .inl same
    · exact .inr same
  · rintro (rfl | rfl)
    · exact ⟨zero_ne_nan, zero_ne_nan, .inl rfl⟩
    · exact ⟨minus_ne_nan, zero_ne_nan, .inr (.inr ⟨rfl, rfl⟩)⟩

theorem unpackExponent_pack_ne_zero {sign : Sign} {mantissa : Nat} {exponent : Int}
    (mantissa_pos : 0 < mantissa) (normal : mantissa.log2 = 52) (low : -52 ≤ exponent) :
    unpackExponent (UnpackedFloat.pack .binary64 (.finite sign mantissa exponent mantissa_pos)) ≠
      0#_ := by
  intro zero
  rw [UnpackedFloat.pack] at zero
  split at zero
  · simp [packedInfinity] at zero
  · next below =>
    rw [if_pos (by rw [normal]; rfl), unpackExponent_packComponents] at zero
    have zero_toNat := congrArg BitVec.toNat zero
    simp [Format.exponentBias] at zero_toNat below
    omega

theorem unpack_ne_zero {bits : BitVec Format.binary64.numBits} (h : unpackExponent bits ≠ 0#_)
    (sign : Sign) : UnpackedFloat.unpack .binary64 bits ≠ .zero sign := by
  rw [UnpackedFloat.unpack]
  dsimp only
  split
  · split <;> simp
  · simp

theorem unpack_round_ne_zero {m : Nat} (pos : 0 < m) (sign zeroSign : Sign) :
    (Float.Model.pack (UnpackedFloat.round .binary64 sign m 0)).unpack ≠ .zero zeroSign := by
  rcases round_of_pos pos with
    ⟨mantissa, exponent, mantissa_pos, round_eq, wide, narrow, -, low, -⟩
  have normal : mantissa.log2 = 52 := (Nat.log2_eq_iff mantissa_pos.ne').mpr ⟨wide, narrow⟩
  rw [round_eq sign]
  change UnpackedFloat.unpack .binary64 (UnpackedFloat.pack .binary64 _) ≠ _
  exact unpack_ne_zero (unpackExponent_pack_ne_zero mantissa_pos normal low) zeroSign

theorem ofInt_eq_zero_iff (n : Int) : (ofInt n == 0.0) = true ↔ n = 0 := by
  rw [eq_zero_iff_unpack]
  change (∃ sign, (Float.Model.pack (UnpackedFloat.normalize .binary64 n 0 .positive)).unpack =
    .zero sign) ↔ _
  constructor
  · rintro ⟨sign, zero⟩
    rw [UnpackedFloat.normalize] at zero
    split at zero
    · next below =>
      have neg := Int.compare_eq_lt.mp below
      exact absurd zero (unpack_round_ne_zero (by omega) _ sign)
    · next equal => exact Int.compare_eq_eq.mp equal
    · next above =>
      have pos := Int.compare_eq_gt.mp above
      exact absurd zero (unpack_round_ne_zero (by omega) _ sign)
  · rintro rfl
    exact ⟨.positive, by rfl⟩

end Numeric

namespace Number

theorem toFloat_eq_zero_iff (b : Number) :
    (b.toFloat == 0.0) = true ↔ b = .int 0 ∨ b = .float 0.0 ∨ b = .float (-0.0) := by
  cases b with
  | int n =>
    change (Numeric.ofInt n.toInt == 0.0) = true ↔ _
    rw [Numeric.ofInt_eq_zero_iff, ← Int64.toInt_zero, Int64.toInt_inj]
    simp
  | float x =>
    change (x == 0.0) = true ↔ _
    rw [Numeric.eq_zero_iff]
    simp

theorem isZero_eq (b : Number) : b.isZero = (b.toFloat == 0.0) := by
  rw [Bool.eq_iff_iff, toFloat_eq_zero_iff]
  cases b with
  | int n => simp [isZero]
  | float x => simp [isZero, Numeric.eq_zero_iff]

end Number

end FieldScript
