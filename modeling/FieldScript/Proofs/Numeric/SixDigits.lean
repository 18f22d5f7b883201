import FieldScript.Numeric.Significant
import FieldScript.Proofs.Numeric.Digits
import Mathlib

/-!
# Rounding to six digits

A rational number is rounded to the nearest multiple of a power of ten, and a tie to the even
multiple. Six digits of a positive fraction are its multiple of the power of ten five places below
its leading digit. Rounding up to the next power of ten moves the leading digit by one place; the
fraction rounded to the multiples that belong to the new place is the same number again.
-/

namespace FieldScript.Numeric

/-- The multiple of `10 ^ scale` that is nearest to `q`, an even one where two are equally near. -/
def RoundsTo (scale : ℤ) (q r : ℚ) : Prop :=
  ∃ m : ℤ, r = m * 10 ^ scale ∧
    ∀ k : ℤ, k ≠ m → |q - r| < |q - k * 10 ^ scale| ∨ |q - r| = |q - k * 10 ^ scale| ∧ Even m

def decimalExponent (q : ℚ) : ℤ := Int.log 10 |q|

/-- The nearest number to `q` with six significant digits. -/
def SixDigits (q r : ℚ) : Prop := RoundsTo (decimalExponent q - 5) q r

/-- Six digits, the first of them at a place, that stand for the nearest number of six significant
digits, and for the nearest one with its last digit where their last digit is. -/
structure SixDigitForm (q : ℚ) (digits : ℕ) (exponent : ℤ) : Prop where
  bounds : 10 ^ 5 ≤ digits ∧ digits < 10 ^ 6
  nearest : SixDigits q (digits * 10 ^ (exponent - 5))
  nearest_at : RoundsTo (exponent - 5) q (digits * 10 ^ (exponent - 5))

theorem unit_pos (scale : ℤ) : (0 : ℚ) < 10 ^ scale := zpow_pos (by norm_num) scale

theorem multiples_apart (scale : ℤ) (q : ℚ) (m k : ℤ) :
    |(m : ℚ) - k| * 10 ^ scale ≤ |q - m * 10 ^ scale| + |q - k * 10 ^ scale| := by
  calc |(m : ℚ) - k| * 10 ^ scale
      = |((m : ℚ) - k) * 10 ^ scale| := by rw [abs_mul, abs_of_pos (unit_pos scale)]
    _ = |m * 10 ^ scale - q + (q - k * 10 ^ scale)| := by congr 1; ring
    _ ≤ |m * 10 ^ scale - q| + |q - k * 10 ^ scale| := abs_add_le _ _
    _ = |q - m * 10 ^ scale| + |q - k * 10 ^ scale| := by rw [abs_sub_comm]

namespace RoundsTo

variable {scale : ℤ} {q r r' : ℚ}

/-- A multiple at most half a unit away, which is even if it is half a unit away. -/
theorem of_near {m : ℤ} (near : |q - m * 10 ^ scale| ≤ 10 ^ scale / 2)
    (tie : |q - m * 10 ^ scale| = 10 ^ scale / 2 → Even m) : RoundsTo scale q (m * 10 ^ scale) := by
  refine ⟨m, rfl, fun k k_ne => ?_⟩
  have one_le : (1 : ℚ) ≤ |(m : ℚ) - k| := by
    exact_mod_cast Int.one_le_abs (sub_ne_zero.mpr k_ne.symm)
  have unit_le := le_mul_of_one_le_left (unit_pos scale).le one_le
  have apart := multiples_apart scale q m k
  rcases lt_or_eq_of_le near with closer | half
  · left
    linarith
  · rcases lt_or_eq_of_le (show |q - m * 10 ^ scale| ≤ |q - k * 10 ^ scale| by linarith) with
      closer | same
    · exact .inl closer
    · exact .inr ⟨same, tie half⟩

theorem near (h : RoundsTo scale q r) : |q - r| ≤ 10 ^ scale / 2 := by
  obtain ⟨m, rfl, nearest⟩ := h
  have no_further (k : ℤ) (k_ne : k ≠ m) : |q - m * 10 ^ scale| ≤ |q - k * 10 ^ scale| := by
    rcases nearest k k_ne with closer | ⟨same, -⟩
    · exact closer.le
    · exact same.le
  have above := no_further (m + 1) (by omega)
  have below := no_further (m - 1) (by omega)
  have positive := unit_pos scale
  push_cast at above below
  rcases le_total 0 (q - m * 10 ^ scale) with nonneg | nonpos
  · rw [abs_of_nonneg nonneg] at above ⊢
    rcases le_abs'.mp above with left | right <;> linarith
  · rw [abs_of_nonpos nonpos] at below ⊢
    rcases le_abs'.mp below with left | right <;> linarith

theorem unique (h : RoundsTo scale q r) (h' : RoundsTo scale q r') : r = r' := by
  have near := h.near
  have near' := h'.near
  obtain ⟨m, rfl, nearest⟩ := h
  obtain ⟨m', rfl, nearest'⟩ := h'
  by_cases same : m = m'
  · rw [same]
  · -- Each is at least as near as the other, so both are even and two units apart.
    exfalso
    have evens : Even m ∧ Even m' := by
      rcases nearest m' (Ne.symm same) with closer | ⟨-, even⟩ <;>
        rcases nearest' m same with closer' | ⟨-, even'⟩ <;> grind
    have two_le : (2 : ℚ) ≤ |(m : ℚ) - m'| := by
      have difference : Even (m - m') := evens.1.sub evens.2
      have not_one : |m - m'| ≠ 1 := by
        intro one
        rw [← even_abs, one] at difference
        exact absurd difference (by decide)
      have := Int.one_le_abs (sub_ne_zero.mpr same)
      exact_mod_cast (show 2 ≤ |m - m'| by omega)
    have positive := unit_pos scale
    have apart := multiples_apart scale q m m'
    have := mul_le_mul_of_nonneg_right two_le positive.le
    linarith

/-- A multiple of the next power of ten is the nearest among the multiples of that one as well. -/
theorem coarser {m : ℤ} (h : RoundsTo scale q (m * 10 ^ (scale + 1))) :
    RoundsTo (scale + 1) q (m * 10 ^ (scale + 1)) := by
  have closer : |q - m * 10 ^ (scale + 1)| < 10 ^ (scale + 1) / 2 := by
    have ten_units : (10 : ℚ) ^ (scale + 1) = 10 ^ scale * 10 := zpow_add_one₀ (by norm_num) scale
    linarith [h.near, unit_pos scale]
  exact of_near closer.le fun half => absurd half closer.ne

theorem neg (h : RoundsTo scale q r) : RoundsTo scale (-q) (-r) := by
  have mirrored (a b : ℚ) : |-a - b| = |a - -b| := by
    rw [← abs_neg]
    congr 1
    ring
  obtain ⟨m, rfl, nearest⟩ := h
  refine ⟨-m, by push_cast; ring, fun k k_ne => ?_⟩
  have other := nearest (-k) (by omega)
  push_cast at other
  rw [even_neg, mirrored, mirrored, neg_neg, ← neg_mul]
  exact other

end RoundsTo

theorem SixDigits.eq_iff {q r r' : ℚ} (h : SixDigits q r) : SixDigits q r' ↔ r' = r := by
  constructor
  · exact fun other => RoundsTo.unique other h
  · rintro rfl
    exact h

theorem SixDigits.neg {q r : ℚ} (h : SixDigits q r) : SixDigits (-q) (-r) := by
  rw [SixDigits, decimalExponent, abs_neg]
  exact RoundsTo.neg h

/-- The quotient is at most a half away, and the rounded one is even if it is a half away. -/
theorem roundEven_near (num : ℕ) {den : ℕ} (den_pos : 0 < den) :
    |(num : ℚ) / den - roundEven num den| ≤ 1 / 2 ∧
      (|(num : ℚ) / den - roundEven num den| = 1 / 2 → Even (roundEven num den)) := by
  have den_pos' : (0 : ℚ) < den := by exact_mod_cast den_pos
  have quotient_eq : (num : ℚ) / den = (num / den : ℕ) + ((num % den : ℕ) : ℚ) / den := by
    rw [eq_comm, add_div_eq_mul_add_div _ _ den_pos'.ne', ← Nat.cast_mul, ← Nat.cast_add,
      Nat.div_add_mod']
  have part_nonneg : (0 : ℚ) ≤ ((num % den : ℕ) : ℚ) / den := by positivity
  have part_lt : ((num % den : ℕ) : ℚ) / den < 1 := by
    rw [div_lt_one den_pos']
    exact_mod_cast Nat.mod_lt num den_pos
  rw [quotient_eq, roundEven]
  split
  · next below =>
    have part_small : ((num % den : ℕ) : ℚ) / den < 1 / 2 := by
      rw [div_lt_div_iff₀ den_pos' two_pos]
      have := Nat.compare_eq_lt.mp below
      exact_mod_cast (show num % den * 2 < 1 * den by omega)
    rw [add_sub_cancel_left, abs_of_nonneg part_nonneg]
    exact ⟨part_small.le, fun half => absurd half part_small.ne⟩
  · next above =>
    have part_large : 1 / 2 < ((num % den : ℕ) : ℚ) / den := by
      rw [div_lt_div_iff₀ two_pos den_pos']
      have := Nat.compare_eq_gt.mp above
      exact_mod_cast (show 1 * den < num % den * 2 by omega)
    rw [Nat.cast_succ, add_sub_add_left_eq_sub, abs_of_neg (by linarith)]
    exact ⟨by linarith, fun half => by linarith⟩
  · next equal =>
    have part_half : ((num % den : ℕ) : ℚ) / den = 1 / 2 := by
      rw [div_eq_div_iff den_pos'.ne' two_ne_zero]
      have := Nat.compare_eq_eq.mp equal
      exact_mod_cast (show num % den * 2 = 1 * den by omega)
    rw [part_half]
    split
    · next even =>
      rw [add_sub_cancel_left, abs_of_pos one_half_pos]
      exact ⟨le_rfl, fun _ => Nat.even_iff.mpr even⟩
    · next odd =>
      rw [Nat.cast_succ, add_sub_add_left_eq_sub, abs_of_neg (by norm_num)]
      exact ⟨by norm_num, fun _ => Nat.even_add_one.mpr (by rwa [Nat.even_iff])⟩

theorem roundsTo_roundEven {num den : ℕ} {scale : ℤ} {q : ℚ} (den_pos : 0 < den)
    (h : (num : ℚ) / den = q / 10 ^ scale) :
    RoundsTo scale q (roundEven num den * 10 ^ scale) := by
  have positive := unit_pos scale
  have scaled : |q - (roundEven num den : ℤ) * 10 ^ scale| =
      |(num : ℚ) / den - roundEven num den| * 10 ^ scale := by
    rw [← abs_of_pos positive, ← abs_mul, abs_of_pos positive, h, sub_mul,
      div_mul_cancel₀ _ positive.ne', Int.cast_natCast]
  obtain ⟨near, tie⟩ := roundEven_near num den_pos
  rw [← Int.cast_natCast (roundEven num den)]
  apply RoundsTo.of_near
  · rw [scaled]
    linarith [mul_le_mul_of_nonneg_right near positive.le]
  · intro half
    rw [scaled, div_eq_mul_one_div (10 ^ scale), mul_comm] at half
    exact (Int.even_coe_nat _).mpr (tie (mul_left_cancel₀ positive.ne' half))

theorem unscale_den_pos (num : ℕ) {den : ℕ} (den_pos : 0 < den) (scale : ℤ) :
    0 < (unscale num den scale).2 :=
  Nat.mul_pos den_pos (Nat.pow_pos (by decide))

theorem unscale_value (num den : ℕ) (scale : ℤ) :
    ((unscale num den scale).1 : ℚ) / (unscale num den scale).2 = num / den / 10 ^ scale := by
  rcases scale.eq_nat_or_neg with ⟨k, rfl | rfl⟩
  · simp [unscale, div_div]
  · simp [unscale, div_eq_mul_inv]
    ring

theorem decimalExponent_eq {q : ℚ} {place : ℤ} (low : 10 ^ place ≤ q)
    (high : q < 10 ^ (place + 1)) : decimalExponent q = place := by
  have q_pos : 0 < q := (unit_pos place).trans_le low
  have le := (Int.zpow_le_iff_le_log (b := 10) (by decide) q_pos).mp (by exact_mod_cast low)
  have lt := (Int.lt_zpow_iff_log_lt (b := 10) (by decide) q_pos).mp (by exact_mod_cast high)
  rw [decimalExponent, abs_of_pos q_pos]
  omega

theorem decimalExponent_bounds {q : ℚ} (q_pos : 0 < q) :
    10 ^ decimalExponent q ≤ q ∧ q < 10 ^ (decimalExponent q + 1) := by
  rw [decimalExponent, abs_of_pos q_pos]
  constructor
  · exact_mod_cast Int.zpow_log_le_self (b := 10) (by decide) q_pos
  · exact_mod_cast Int.lt_zpow_succ_log_self (b := 10) (by decide) q

theorem zpow_natCast_sub (a b : ℕ) : (10 : ℚ) ^ ((a : ℤ) - b) = 10 ^ a / 10 ^ b := by
  rw [zpow_sub₀ (by norm_num), zpow_natCast, zpow_natCast]

/-- The numbers of digits of a numerator and a denominator give the place of the leading digit up to
one. -/
theorem quotient_bounds {num den : ℕ} (num_pos : 0 < num) (den_pos : 0 < den) :
    (10 : ℚ) ^ (((Nat.toDigits 10 num).length : ℤ) - (Nat.toDigits 10 den).length - 1) ≤ num / den ∧
      (num : ℚ) / den <
        10 ^ (((Nat.toDigits 10 num).length : ℤ) - (Nat.toDigits 10 den).length + 1) := by
  have den_pos' : (0 : ℚ) < den := by exact_mod_cast den_pos
  obtain ⟨num_low, num_high⟩ := toDigits_bounds num_pos
  obtain ⟨den_low, den_high⟩ := toDigits_bounds den_pos
  obtain ⟨n, num_length⟩ := Nat.exists_eq_add_one_of_ne_zero (length_toDigits_pos num).ne'
  obtain ⟨d, den_length⟩ := Nat.exists_eq_add_one_of_ne_zero (length_toDigits_pos den).ne'
  rw [num_length] at num_low num_high ⊢
  rw [den_length] at den_low den_high ⊢
  have low_eq : ((n + 1 : ℕ) : ℤ) - (d + 1 : ℕ) - 1 = n - (d + 1 : ℕ) := by push_cast; ring
  have high_eq : ((n + 1 : ℕ) : ℤ) - (d + 1 : ℕ) + 1 = (n + 1 : ℕ) - d := by push_cast; ring
  rw [low_eq, high_eq, zpow_natCast_sub, zpow_natCast_sub]
  constructor
  · have num_le : (10 : ℚ) ^ n ≤ num := by exact_mod_cast num_low
    have den_le : (den : ℚ) ≤ 10 ^ (d + 1) := by exact_mod_cast den_high.le
    gcongr
  · have num_lt : (num : ℚ) < 10 ^ (n + 1) := by exact_mod_cast num_high
    have den_ge : (10 : ℚ) ^ d ≤ den := by exact_mod_cast den_low
    calc (num : ℚ) / den ≤ num / 10 ^ d := by gcongr
      _ < 10 ^ (n + 1) / 10 ^ d := by gcongr

theorem leadingPlace_eq {num den : ℕ} (num_pos : 0 < num) (den_pos : 0 < den) :
    leadingPlace num den = decimalExponent ((num : ℚ) / den) := by
  obtain ⟨low, high⟩ := quotient_bounds num_pos den_pos
  have reached (place : ℤ) :
      den * Nat.pow 10 place.toNat ≤ num * Nat.pow 10 (-place).toNat ↔
        10 ^ place ≤ (num : ℚ) / den := by
    have scaled_pos : (0 : ℚ) < (unscale num den place).2 := by
      exact_mod_cast unscale_den_pos num den_pos place
    rw [← one_le_div (unit_pos place), ← unscale_value, one_le_div scaled_pos, Nat.cast_le]
    rfl
  rw [leadingPlace]
  generalize ((Nat.toDigits 10 num).length : ℤ) - (Nat.toDigits 10 den).length = place at *
  simp only [reached]
  split
  · next le => exact (decimalExponent_eq le high).symm
  · next lt =>
    have below : (num : ℚ) / den < 10 ^ (place - 1 + 1) := by
      rw [sub_add_cancel]
      exact not_le.mp lt
    exact (decimalExponent_eq low below).symm

/-- The least number of six digits, and the one above the largest, with the leading digit at a
place. -/
theorem six_digits_at (place : ℤ) :
    (10 : ℚ) ^ 5 * 10 ^ (place - 5) = 10 ^ place ∧
      (10 : ℚ) ^ 6 * 10 ^ (place - 5) = 10 ^ (place + 1) := by
  constructor
  · rw [← zpow_natCast, ← zpow_add₀ (by norm_num)]
    congr 1
    push_cast
    ring
  · rw [← zpow_natCast, ← zpow_add₀ (by norm_num)]
    congr 1
    push_cast
    ring

theorem SixDigitForm.decimalExponent_eq {q : ℚ} {digits : ℕ} {exponent : ℤ}
    (h : SixDigitForm q digits exponent) :
    decimalExponent ((digits : ℚ) * 10 ^ (exponent - 5)) = exponent := by
  have low : (10 : ℚ) ^ 5 ≤ digits := by exact_mod_cast h.bounds.1
  have high : (digits : ℚ) < 10 ^ 6 := by exact_mod_cast h.bounds.2
  have positive := unit_pos (exponent - 5)
  apply Numeric.decimalExponent_eq
  · calc (10 : ℚ) ^ exponent = 10 ^ 5 * 10 ^ (exponent - 5) := (six_digits_at exponent).1.symm
      _ ≤ digits * 10 ^ (exponent - 5) := by gcongr
  · calc (digits : ℚ) * 10 ^ (exponent - 5) < 10 ^ 6 * 10 ^ (exponent - 5) := by gcongr
      _ = 10 ^ (exponent + 1) := (six_digits_at exponent).2

theorem roundEven_bounds {num den low high : ℕ} (den_pos : 0 < den) (le : low ≤ (num : ℚ) / den)
    (ge : (num : ℚ) / den ≤ high) : low ≤ roundEven num den ∧ roundEven num den ≤ high := by
  obtain ⟨above, below⟩ := abs_le.mp (roundEven_near num den_pos).1
  constructor
  · have lt : (low : ℚ) < roundEven num den + 1 := by linarith
    exact Nat.lt_succ_iff.mp (by exact_mod_cast lt)
  · have lt : (roundEven num den : ℚ) < high + 1 := by linarith
    exact Nat.lt_succ_iff.mp (by exact_mod_cast lt)

/-- In units of the fifth place below the leading digit a fraction is rounded to six digits, or up
to the least number of seven. -/
theorem roundEven_six_digits {num den : ℕ} {q : ℚ} (q_pos : 0 < q) (den_pos : 0 < den)
    (h : (num : ℚ) / den = q / 10 ^ (decimalExponent q - 5)) :
    10 ^ 5 ≤ roundEven num den ∧ roundEven num den ≤ 10 ^ 6 := by
  obtain ⟨low, high⟩ := decimalExponent_bounds q_pos
  obtain ⟨least, next⟩ := six_digits_at (decimalExponent q)
  apply roundEven_bounds den_pos
  · rw [h, le_div_iff₀ (unit_pos _), Nat.cast_pow, Nat.cast_ofNat, least]
    exact low
  · rw [h, div_le_iff₀ (unit_pos _), Nat.cast_pow, Nat.cast_ofNat, next]
    exact high.le

/-- Rounding up to the next power of ten moves the leading digit by one place. -/
theorem SixDigitForm.of_carry {q : ℚ}
    (h : SixDigits q ((10 ^ 6 : ℕ) * 10 ^ (decimalExponent q - 5))) :
    SixDigitForm q (10 ^ 5) (decimalExponent q + 1) := by
  have same : ((10 ^ 5 : ℤ) : ℚ) * 10 ^ (decimalExponent q - 5 + 1) =
      (10 ^ 6 : ℕ) * 10 ^ (decimalExponent q - 5) := by
    rw [zpow_add_one₀ (by norm_num)]
    push_cast
    ring
  have next_scale : decimalExponent q + 1 - 5 = decimalExponent q - 5 + 1 := by ring
  rw [← same] at h
  refine ⟨by decide, ?_, ?_⟩ <;> rw [next_scale]
  · exact_mod_cast h
  · exact_mod_cast RoundsTo.coarser h

theorem significant_form {num den : ℕ} (num_pos : 0 < num) (den_pos : 0 < den) :
    SixDigitForm (num / den) (significant num den).1 (significant num den).2 := by
  have q_pos : 0 < (num : ℚ) / den := by positivity
  have scaled_pos := unscale_den_pos num den_pos (decimalExponent ((num : ℚ) / den) - 5)
  have value_eq := unscale_value num den (decimalExponent ((num : ℚ) / den) - 5)
  have nearest := roundsTo_roundEven scaled_pos value_eq
  have bounds := roundEven_six_digits q_pos scaled_pos value_eq
  have scale_eq (place : ℤ) : place - ((displayDigits : ℤ) - 1) = place - 5 := rfl
  simp only [significant, leadingPlace_eq num_pos den_pos, scale_eq]
  generalize unscale num den (decimalExponent ((num : ℚ) / den) - 5) = scaled at *
  split
  · next carry =>
    rw [carry] at nearest
    exact .of_carry nearest
  · next no_carry => exact ⟨⟨bounds.1, lt_of_le_of_ne bounds.2 no_carry⟩, nearest, nearest⟩

/-- With as many decimals as six digits leave, the fraction is rounded to the same digits. -/
theorem roundEven_decimals {num den digits : ℕ} {exponent : ℤ} (den_pos : 0 < den)
    (h : SixDigitForm (num / den) digits exponent) (low : exponent ≤ 5) :
    roundEven (num * Nat.pow 10 (5 - exponent).toNat) den = digits := by
  obtain ⟨decimals, decimals_eq⟩ := Int.eq_ofNat_of_zero_le (show 0 ≤ 5 - exponent by omega)
  have scale_eq : exponent - 5 = -(decimals : ℤ) := by omega
  have value_eq : ((num * Nat.pow 10 decimals : ℕ) : ℚ) / den =
      num / den / 10 ^ (exponent - 5) := by
    rw [scale_eq, zpow_neg, zpow_natCast, div_inv_eq_mul, Nat.cast_mul, mul_div_right_comm]
    norm_num
  have same := (roundsTo_roundEven den_pos value_eq).unique h.nearest_at
  rw [decimals_eq, Int.toNat_natCast]
  exact_mod_cast mul_right_cancel₀ (unit_pos (exponent - 5)).ne' same

end FieldScript.Numeric
