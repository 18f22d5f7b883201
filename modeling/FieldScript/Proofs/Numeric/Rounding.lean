import FieldScript.Numeric.Parts
import Mathlib

/-!
# Rounding integers

A positive integer is shifted to 53 bits and rounded, with the bits that are shifted out kept as a
round bit and a sticky bit. Rounding may carry into one bit more, which a second shift takes over
into the exponent. Taken together as one number the exponent and the mantissa show nothing of the
carry. So a larger integer is never rounded to a smaller float, and below `2 ^ 53` not to the same
one either.
-/

namespace FieldScript.Numeric

open Float.Model Float.Model.UnpackedFloat

theorem log2_shiftRight (n k : Nat) : (n >>> k).log2 = n.log2 - k := by
  rw [Nat.log2_eq_log_two, Nat.log2_eq_log_two, Nat.shiftRight_eq_div_pow, Nat.log_div_base_pow]

theorem log2_shiftLeft {n : Nat} (pos : 0 < n) (k : Nat) : (n <<< k).log2 = n.log2 + k := by
  induction k with
  | zero => rfl
  | succ k ih =>
    have shifted_pos : n <<< k ≠ 0 := by simp; omega
    rw [Nat.shiftLeft_succ, Nat.log2_two_mul shifted_pos, ih]
    rfl

theorem log2_le_log2 {m n : Nat} (h : m ≤ n) : m.log2 ≤ n.log2 := by
  rw [Nat.log2_eq_log_two, Nat.log2_eq_log_two]
  exact Nat.log_mono_right h

theorem mantissa_shift (em : ExtendedMantissa) (k : Nat) :
    (em >>> k).mantissa = em.mantissa >>> k := by
  induction k with
  | zero => rfl
  | succ k ih =>
    change (em >>> k).mantissa / 2 = _
    rw [ih, Nat.shiftRight_succ]

theorem mantissa_ofMantissaAndAccuracy (m : Nat) (accuracy : Accuracy) :
    (ExtendedMantissa.ofMantissaAndAccuracy m accuracy).mantissa = m := by
  cases accuracy with
  | exact => rfl
  | inexact order => cases order <;> rfl

theorem roundedMantissa_bounds (em : ExtendedMantissa) :
    em.mantissa ≤ em.roundedMantissa ∧ em.roundedMantissa ≤ em.mantissa + 1 := by
  obtain ⟨mantissa, roundBit, stickyBit⟩ := em
  cases roundBit <;> cases stickyBit <;>
    simp [ExtendedMantissa.roundedMantissa, ExtendedMantissa.accuracy, Accuracy.roundToNearestEven]
  omega

/-- A mantissa with its round bit and its sticky bit, as one number. -/
def extendedBits (em : ExtendedMantissa) : Nat :=
  4 * em.mantissa + 2 * em.roundBit.toNat + em.stickyBit.toNat

theorem extendedBits_shiftRightOne {em more : ExtendedMantissa}
    (h : extendedBits em ≤ extendedBits more) :
    extendedBits em.shiftRightOne ≤ extendedBits more.shiftRightOne := by
  have lastBit (n : Nat) : (n % 2 != 0).toNat = n % 2 := by
    rcases Nat.mod_two_eq_zero_or_one n with even | odd
    · simp [even]
    · simp [odd]
  obtain ⟨m, roundBit, stickyBit⟩ := em
  obtain ⟨n, roundBit', stickyBit'⟩ := more
  simp only [extendedBits, ExtendedMantissa.shiftRightOne, lastBit] at h ⊢
  cases roundBit <;> cases stickyBit <;> cases roundBit' <;> cases stickyBit' <;>
    simp at h ⊢ <;> omega

theorem extendedBits_shift {em more : ExtendedMantissa}
    (h : extendedBits em ≤ extendedBits more) (k : Nat) :
    extendedBits (em >>> k) ≤ extendedBits (more >>> k) := by
  induction k with
  | zero => exact h
  | succ k ih => exact extendedBits_shiftRightOne ih

theorem roundedMantissa_mono {em more : ExtendedMantissa}
    (h : extendedBits em ≤ extendedBits more) : em.roundedMantissa ≤ more.roundedMantissa := by
  obtain ⟨m, roundBit, stickyBit⟩ := em
  obtain ⟨n, roundBit', stickyBit'⟩ := more
  cases roundBit <;> cases stickyBit <;> cases roundBit' <;> cases stickyBit' <;>
    simp [extendedBits, ExtendedMantissa.roundedMantissa, ExtendedMantissa.accuracy,
      Accuracy.roundToNearestEven] at h ⊢ <;> omega

/-- A positive integer shifted so that its leading bit is the last of 53. -/
def aligned (m : Nat) : ExtendedMantissa :=
  ExtendedMantissa.ofMantissaAndAccuracy (m <<< (52 - m.log2)) .exact >>> (m.log2 - 52)

/-- The 53 bits that an integer is rounded to, or the power of two above them. -/
def significand (m : Nat) : Nat := (aligned m).roundedMantissa

theorem significand_bounds {m : Nat} (pos : 0 < m) :
    2 ^ 52 ≤ significand m ∧ significand m ≤ 2 ^ 53 := by
  have mantissa_eq : (aligned m).mantissa = (m <<< (52 - m.log2)) >>> (m.log2 - 52) := by
    rw [aligned, mantissa_shift, mantissa_ofMantissaAndAccuracy]
  have width : (aligned m).mantissa.log2 = 52 := by
    rw [mantissa_eq, log2_shiftRight, log2_shiftLeft pos]
    omega
  have nonzero : (aligned m).mantissa ≠ 0 := by
    intro zero
    rw [zero, Nat.log2_zero] at width
    omega
  have bounds := (Nat.log2_eq_iff nonzero).mp width
  have rounded := roundedMantissa_bounds (aligned m)
  exact ⟨bounds.1.trans rounded.1, rounded.2.trans bounds.2⟩

theorem significand_of_small {m : Nat} (small : m.log2 ≤ 52) :
    significand m = m * 2 ^ (52 - m.log2) := by
  rw [significand, aligned, Nat.sub_eq_zero_of_le small, Nat.shiftLeft_eq]
  rfl

theorem significand_mono {m n : Nat} (h : m ≤ n) (same : m.log2 = n.log2) :
    significand m ≤ significand n := by
  rw [significand, significand, aligned, aligned, same]
  apply roundedMantissa_mono
  apply extendedBits_shift
  have scaled := Nat.mul_le_mul_right (2 ^ (52 - n.log2)) h
  simp only [extendedBits, ExtendedMantissa.ofMantissaAndAccuracy, Nat.shiftLeft_eq]
  omega

theorem significand_lt_of_small {m : Nat} (small : m.log2 ≤ 52) :
    significand m < 2 ^ 53 := by
  have below : m < 2 ^ (m.log2 + 1) := Nat.lt_log2_self
  calc significand m = m * 2 ^ (52 - m.log2) := significand_of_small small
    _ < 2 ^ (m.log2 + 1) * 2 ^ (52 - m.log2) :=
      Nat.mul_lt_mul_of_pos_right below (Nat.two_pow_pos _)
    _ = 2 ^ 53 := by
      rw [← Nat.pow_add]
      congr 1
      omega

/-- The exponent and the mantissa of the rounded integer as one number, which grows as the float
does. -/
def ordinal (m : Nat) : Nat := m.log2 * 2 ^ 52 + significand m

theorem ordinal_pos {m : Nat} (pos : 0 < m) : 0 < ordinal m := by
  have low := (significand_bounds pos).1
  rw [ordinal]
  omega

theorem ordinal_mono {m n : Nat} (h : m ≤ n) : ordinal m ≤ ordinal n := by
  rcases Nat.eq_zero_or_pos m with rfl | pos
  · exact Nat.zero_le _
  · have high := (significand_bounds pos).2
    have low := (significand_bounds (pos.trans_le h)).1
    rw [ordinal, ordinal]
    rcases (log2_le_log2 h).lt_or_eq with shorter | same
    · omega
    · have le := significand_mono h same
      omega

/-- An integer of at most 53 bits is exact, so no other one is rounded to the same float. -/
theorem ordinal_strictMono {m n : Nat} (h : m < n) (small : m < 2 ^ 53) :
    ordinal m < ordinal n := by
  rcases Nat.eq_zero_or_pos m with rfl | pos
  · exact ordinal_pos h
  · have log2_small : m.log2 ≤ 52 := Nat.lt_succ_iff.mp ((Nat.log2_lt pos.ne').mpr small)
    have high := significand_lt_of_small log2_small
    have low := (significand_bounds (pos.trans h)).1
    rw [ordinal, ordinal]
    rcases (log2_le_log2 h.le).lt_or_eq with shorter | same
    · omega
    · have scaled := Nat.mul_lt_mul_of_pos_right h (Nat.two_pow_pos (52 - n.log2))
      rw [significand_of_small log2_small, significand_of_small (same ▸ log2_small), same]
      omega

/-- A mantissa that is wide enough is shifted to the width of the format. -/
theorem shiftToTargetExponent_of_wide {m : Nat} {e : Int} (wide : 52 ≤ m.log2) (low : -52 ≤ e) :
    shiftToTargetExponent .binary64 m e .exact =
      (ExtendedMantissa.ofMantissaAndAccuracy m .exact >>> (m.log2 - 52),
        e + (m.log2 - 52 : Nat)) := by
  have target : Format.binary64.targetExponent (totalExponent m e) = m.log2 + e - 52 := by
    simp [Format.targetExponent, totalExponent, Format.mantissaBits, Format.minExponent]
    omega
  have amount : ((m.log2 : Int) + e - 52 - e).toNat = m.log2 - 52 := by omega
  simp only [shiftToTargetExponent, shiftToExponent, target, amount]

/-- The first shift aligns an integer, whichever way its leading bit has to go. -/
theorem shiftToTargetExponent_aligned {m : Nat} (pos : 0 < m) :
    shiftToTargetExponent .binary64 (m <<< (52 - m.log2)) (-((52 - m.log2 : Nat) : Int)) .exact =
      (aligned m, (m.log2 : Int) - 52) := by
  have log2_eq := log2_shiftLeft pos (52 - m.log2)
  have width : m.log2 + (52 - m.log2) - 52 = m.log2 - 52 := by omega
  have place : -((52 - m.log2 : Nat) : Int) + (m.log2 - 52 : Nat) = m.log2 - 52 := by omega
  rw [shiftToTargetExponent_of_wide (by omega) (by omega), log2_eq, width, place, aligned]

/-- The second shift takes a carry over into the exponent. -/
theorem shiftToTargetExponent_carried {r : Nat} {e : Int} (bounds : 2 ^ 52 ≤ r ∧ r ≤ 2 ^ 53)
    (low : -52 ≤ e) :
    ∃ final exponent, shiftToTargetExponent .binary64 r e .exact = (final, exponent) ∧
      2 ^ 52 ≤ final.mantissa ∧ final.mantissa < 2 ^ 53 ∧
      exponent * 2 ^ 52 + final.mantissa = e * 2 ^ 52 + r ∧ e ≤ exponent ∧ exponent ≤ e + 1 := by
  have wide : 52 ≤ r.log2 := (Nat.le_log2 (by omega)).mpr bounds.1
  refine ⟨_, _, shiftToTargetExponent_of_wide wide low, ?_⟩
  rw [mantissa_shift, mantissa_ofMantissaAndAccuracy, Nat.shiftRight_eq_div_pow]
  rcases bounds.2.lt_or_eq with below | rfl
  · have width : r.log2 - 52 = 0 := by
      have := (Nat.log2_lt (by omega)).mpr below
      omega
    rw [width]
    omega
  · have width : (2 ^ 53).log2 - 52 = 1 := by rw [Nat.log2_two_pow]
    rw [width]
    omega

theorem roundWithAccuracy_of_shifts {m : Nat} {e place exponent : Int}
    {em final : ExtendedMantissa}
    (first : shiftToTargetExponent .binary64 m e .exact = (em, place))
    (second : shiftToTargetExponent .binary64 em.roundedMantissa place .exact = (final, exponent))
    (final_pos : 0 < final.mantissa) (sign : Sign) :
    roundWithAccuracy .binary64 sign m e .exact =
      .finite sign final.mantissa exponent final_pos := by
  simp only [roundWithAccuracy, first, second]
  rw [dif_neg final_pos.ne']

/-- The float of a positive integer has 53 bits, and its exponent and mantissa make up the ordinal
of the integer. -/
theorem round_of_pos {m : Nat} (pos : 0 < m) :
    ∃ mantissa exponent mantissa_pos,
      (∀ sign, UnpackedFloat.round .binary64 sign m 0 =
        .finite sign mantissa exponent mantissa_pos) ∧
      2 ^ 52 ≤ mantissa ∧ mantissa < 2 ^ 53 ∧
      (exponent + 52) * 2 ^ 52 + mantissa = ordinal m ∧
      -52 ≤ exponent ∧ exponent + 51 ≤ m.log2 := by
  have target : Format.binary64.targetExponent (totalExponent m 0) = m.log2 - 52 := by
    simp [Format.targetExponent, totalExponent, Format.mantissaBits, Format.minExponent]
    omega
  have amount : (0 - ((m.log2 : Int) - 52)).toNat = 52 - m.log2 := by omega
  have decreased : decreaseExponent m 0 (m.log2 - 52) =
      (m <<< (52 - m.log2), -((52 - m.log2 : Nat) : Int)) := by
    simp only [decreaseExponent, amount]
    rw [zero_sub]
  rcases shiftToTargetExponent_carried (e := m.log2 - 52) (significand_bounds pos) (by omega) with
    ⟨final, exponent, second, wide, narrow, ordinal_eq, low, high⟩
  have final_pos : 0 < final.mantissa := by omega
  refine ⟨_, exponent, final_pos, ?_, wide, narrow, ?_, by omega, by omega⟩
  · intro sign
    rw [UnpackedFloat.round, target, decreased]
    exact roundWithAccuracy_of_shifts (shiftToTargetExponent_aligned pos) second final_pos sign
  · rw [ordinal]
    omega

end FieldScript.Numeric
