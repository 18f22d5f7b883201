import FieldScript.Proofs.Numeric.DecimalText
import FieldScript.Proofs.Numeric.SixDigits
import Mathlib

/-!
# The display of a float

A whole float below the limit is displayed as the integer that it is. The text of any other finite
float denotes the nearest number with six significant digits, and the place of the leading digit of
that number decides between the two forms. Where it is written in full, this rests on the second
rounding: to the decimals that six digits leave, it comes out at the same number.
-/

namespace FieldScript.Numeric

open Decimal

namespace Size

variable {a : Size}

def value (a : Size) : ℚ := a.mantissa * 2 ^ a.exponent

theorem value_eq_div (a : Size) : a.value = a.num / a.den := by
  obtain ⟨mantissa, exponent⟩ := a
  rcases exponent.eq_nat_or_neg with ⟨k, rfl | rfl⟩ <;> simp [value, num, den, div_eq_mul_inv]

theorem value_nonneg (a : Size) : 0 ≤ a.value := by
  rw [value]
  positivity

theorem num_pos (pos : 0 < a.mantissa) : 0 < a.num :=
  Nat.mul_pos pos (Nat.pow_pos (by decide))

theorem value_of_isWhole (whole : a.isWhole = true) : a.value = a.truncate := by
  have divides : a.den ∣ a.num := Nat.dvd_of_mod_eq_zero (by simpa [isWhole] using whole)
  have den_ne : (a.den : ℚ) ≠ 0 := by exact_mod_cast a.den_pos.ne'
  rw [value_eq_div, truncate, Nat.cast_div divides den_ne]

theorem floor_value (a : Size) : ⌊a.value⌋₊ = a.truncate := by
  rw [value_eq_div, Nat.floor_div_eq_div, truncate]

theorem isWhole_of_value {n : ℕ} (h : a.value = n) : a.isWhole = true ∧ a.truncate = n := by
  have den_ne : (a.den : ℚ) ≠ 0 := by exact_mod_cast a.den_pos.ne'
  have num_eq : a.num = n * a.den := by
    rw [value_eq_div, div_eq_iff den_ne] at h
    exact_mod_cast h
  constructor
  · simp [isWhole, num_eq]
  · rw [truncate, num_eq, Nat.mul_div_cancel n a.den_pos]

theorem significant_form (pos : 0 < a.mantissa) :
    SixDigitForm a.value (significant a.num a.den).1 (significant a.num a.den).2 := by
  rw [value_eq_div]
  exact Numeric.significant_form (num_pos pos) a.den_pos

end Size

/-- The number that the six digits of a size stand for. -/
def shown (a : Size) : ℚ := (significant a.num a.den).1 * 10 ^ ((significant a.num a.den).2 - 5)

section Size

variable {a : Size} (pos : 0 < a.mantissa)

include pos

theorem shown_nearest : SixDigits a.value (shown a) := (Size.significant_form pos).nearest

theorem decimalExponent_shown : decimalExponent (shown a) = (significant a.num a.den).2 :=
  (Size.significant_form pos).decimalExponent_eq

theorem displaySize_scientific
    (outside : decimalExponent (shown a) < -4 ∨ 6 ≤ decimalExponent (shown a)) (negative : Bool) :
    IsScientific (withSign negative (displaySize a)) ∧
      denoted (withSign negative (displaySize a)) = some (signed negative (shown a)) := by
  rw [decimalExponent_shown pos] at outside
  have display_eq : displaySize a = trimFraction (withDecimals (significant a.num a.den).1 5) ++
      exponentText (significant a.num a.den).2 := if_pos outside
  rw [display_eq]
  exact withDecimals_scientific (Size.significant_form pos).bounds _ negative

theorem displaySize_plain
    (inside : ¬(decimalExponent (shown a) < -4 ∨ 6 ≤ decimalExponent (shown a)))
    (negative : Bool) :
    IsPlain (withSign negative (displaySize a)) ∧
      denoted (withSign negative (displaySize a)) = some (signed negative (shown a)) := by
  rw [decimalExponent_shown pos] at inside
  have form := Size.significant_form pos
  rw [Size.value_eq_div] at form
  have display_eq : displaySize a =
      trimFraction (fixed a.num a.den (5 - (significant a.num a.den).2).toNat) := if_neg inside
  have scale_eq : -((5 - (significant a.num a.den).2).toNat : ℤ) =
      (significant a.num a.den).2 - 5 := by omega
  rw [display_eq, fixed, roundEven_decimals a.den_pos form (by omega), shown, ← scale_eq]
  exact withDecimals_plain _ _ negative

end Size

def exactValue (x : Float) : ℚ :=
  match parts x with
  | .finite negative a => signed negative a.value
  | _ => 0

theorem parts_of_isFinite {x : Float} (finite : x.isFinite = true) :
    ∃ negative a, parts x = .finite negative a := by
  change x.toModel.unpack.isFinite = true at finite
  rw [parts]
  cases unpacked : x.toModel.unpack with
  | notANumber => simp [unpacked, Float.Model.UnpackedFloat.isFinite] at finite
  | infinity sign => simp [unpacked, Float.Model.UnpackedFloat.isFinite] at finite
  | zero sign => exact ⟨_, _, rfl⟩
  | finite sign mantissa exponent pos => exact ⟨_, _, rfl⟩

theorem isFinite_of_parts {x : Float} {negative : Bool} {a : Size}
    (h : parts x = .finite negative a) : x.isFinite = true := by
  change x.toModel.unpack.isFinite = true
  rw [parts] at h
  cases unpacked : x.toModel.unpack with
  | notANumber => simp [unpacked] at h
  | infinity sign => simp [unpacked] at h
  | _ => rfl

theorem abs_signed (negative : Bool) (q : ℚ) : |signed negative q| = |q| := by
  cases negative
  · rfl
  · exact abs_neg q

theorem decimalExponent_signed (negative : Bool) (q : ℚ) :
    decimalExponent (signed negative q) = decimalExponent q := by
  rw [decimalExponent, decimalExponent, abs_signed]

theorem SixDigits.signed {q r : ℚ} (h : SixDigits q r) (negative : Bool) :
    SixDigits (signed negative q) (signed negative r) := by
  cases negative
  · exact h
  · exact h.neg

theorem toString_eq_withSign (n : ℤ) :
    toString n = String.ofList (withSign (n < 0) (Nat.toDigits 10 n.natAbs)) := by
  cases n with
  | ofNat m => rfl
  | negSucc m =>
    apply String.toList_inj.mp
    change ("-" ++ (m + 1).repr).toList = _
    simp [withSign, Nat.toList_repr]

section Parts

variable {x : Float} {negative : Bool} {a : Size} (parts_eq : parts x = .finite negative a)

include parts_eq

theorem exactValue_of_parts : exactValue x = signed negative a.value := by
  rw [exactValue, parts_eq]

/-- No sign stands before zero. -/
theorem display_of_whole {n : ℤ} (value_eq : exactValue x = n) (small : |n| < 10 ^ 15) :
    String.ofList (display x) = toString n := by
  rw [exactValue_of_parts parts_eq] at value_eq
  have size_eq : a.value = n.natAbs := by
    rw [Nat.cast_natAbs, Int.cast_abs, ← value_eq, abs_signed, abs_of_nonneg a.value_nonneg]
  obtain ⟨whole, truncate_eq⟩ := Size.isWhole_of_value size_eq
  have below : a.truncate < wholeLimit := by
    rw [Int.abs_eq_natAbs] at small
    rw [truncate_eq, wholeLimit]
    omega
  have sign_eq : decide (negative = true ∧ a.truncate ≠ 0) = decide (n < 0) := by
    rw [truncate_eq, decide_eq_decide]
    cases negative with
    | false =>
      have nonneg : (0 : ℚ) ≤ n := value_eq ▸ a.value_nonneg
      have : 0 ≤ n := by exact_mod_cast nonneg
      simpa using this
    | true =>
      have nonpos : (n : ℚ) ≤ 0 := value_eq ▸ neg_nonpos.mpr a.value_nonneg
      have : n ≤ 0 := by exact_mod_cast nonpos
      simp only [true_and]
      omega
  have display_eq : display x =
      withSign (decide (negative = true ∧ a.truncate ≠ 0)) (Nat.toDigits 10 a.truncate) := by
    simp only [display, parts_eq]
    exact if_pos ⟨whole, below⟩
  rw [display_eq, sign_eq, truncate_eq, toString_eq_withSign]

theorem display_of_large (large : ∀ n : ℤ, exactValue x = n → 10 ^ 15 ≤ |n|) :
    0 < a.mantissa ∧ display x = withSign negative (displaySize a) := by
  rw [exactValue_of_parts parts_eq] at large
  constructor
  · apply Nat.pos_of_ne_zero
    intro zero
    have absurd_limit := large 0 (by simp [Size.value, zero, signed])
    simp at absurd_limit
  · have not_small : ¬(a.isWhole = true ∧ a.truncate < wholeLimit) := by
      rintro ⟨whole, below⟩
      have value_eq : signed negative a.value = applySign negative a.truncate := by
        rw [Size.value_of_isWhole whole]
        simpa using (applySign_mul negative a.truncate 1).symm
      have limit := large _ value_eq
      rw [wholeLimit] at below
      cases negative <;> simp [applySign] at limit <;> omega
    simp only [display, parts_eq]
    exact if_neg not_small

end Parts

/-- A whole float below the limit is displayed as an integer. Any other finite float has one nearest
number of six significant digits, and its text denotes that number: in full where the leading digit
of the number lies between the fourth decimal and the sixth whole place, with an exponent elsewhere.
-/
theorem display_six_digits {x : Float} (finite : x.isFinite = true) :
    (∀ n : ℤ, exactValue x = n → |n| < 10 ^ 15 → String.ofList (display x) = toString n) ∧
      ((∀ n : ℤ, exactValue x = n → 10 ^ 15 ≤ |n|) →
        ∃ r, (∀ r', SixDigits (exactValue x) r' ↔ r' = r) ∧ denoted (display x) = some r ∧
          (IsScientific (display x) ↔ decimalExponent r < -4 ∨ 6 ≤ decimalExponent r) ∧
          (IsPlain (display x) ↔ -4 ≤ decimalExponent r ∧ decimalExponent r < 6)) := by
  obtain ⟨negative, a, parts_eq⟩ := parts_of_isFinite finite
  refine ⟨fun n => display_of_whole parts_eq, fun large => ?_⟩
  obtain ⟨pos, display_eq⟩ := display_of_large parts_eq large
  refine ⟨signed negative (shown a), ?_, ?_⟩
  · rw [exactValue_of_parts parts_eq]
    exact fun r' => ((shown_nearest pos).signed negative).eq_iff
  · rw [decimalExponent_signed, display_eq]
    by_cases outside : decimalExponent (shown a) < -4 ∨ 6 ≤ decimalExponent (shown a)
    · obtain ⟨scientific, denoted_eq⟩ := displaySize_scientific pos outside negative
      have not_plain := fun plain : IsPlain _ => plain.not_scientific scientific
      exact ⟨denoted_eq, iff_of_true scientific outside, iff_of_false not_plain (by omega)⟩
    · obtain ⟨plain, denoted_eq⟩ := displaySize_plain pos outside negative
      exact ⟨denoted_eq, iff_of_false plain.not_scientific outside, iff_of_true plain (by omega)⟩

/-- The float is a tie between two numbers with six digits, and the even one is the next power of
ten, so that it is displayed with an exponent. -/
theorem display_six_digits_carry :
    Float.isFinite 999999.5 = true ∧ SixDigits (exactValue 999999.5) 1000000 ∧
      denoted (display 999999.5) = some 1000000 ∧ IsScientific (display 999999.5) := by
  have finite : Float.isFinite 999999.5 = true := by decide +kernel
  have parts_eq : parts 999999.5 = .finite false ⟨8589930297032704, -33⟩ := by decide +kernel
  have value_eq : exactValue 999999.5 = 1999999 / 2 := by
    rw [exactValue_of_parts parts_eq]
    norm_num [signed, Size.value]
  have not_whole (n : ℤ) (whole : exactValue 999999.5 = n) : 10 ^ 15 ≤ |n| := by
    rw [value_eq, div_eq_iff two_ne_zero] at whole
    have : (1999999 : ℤ) = n * 2 := by exact_mod_cast whole
    omega
  have place_eq : decimalExponent (1999999 / 2) = 5 := by
    apply decimalExponent_eq <;> norm_num
  have tie : SixDigits (exactValue 999999.5) 1000000 := by
    rw [value_eq, SixDigits, place_eq]
    have near : RoundsTo (5 - 5) (1999999 / 2) ((1000000 : ℤ) * 10 ^ (5 - 5 : ℤ)) :=
      RoundsTo.of_near (by norm_num [abs_div]) fun _ => by decide
    simpa using near
  have next_place : decimalExponent 1000000 = 6 := by
    apply decimalExponent_eq <;> norm_num
  obtain ⟨r, nearest, denoted_eq, scientific, -⟩ := (display_six_digits finite).2 not_whole
  rcases (nearest 1000000).mp tie with rfl
  exact ⟨finite, tie, denoted_eq, scientific.mpr (.inr next_place.ge)⟩

/-- A tie goes to the even digit, and no zero before the point is dropped. -/
example : String.ofList (display 100000.5) = "100000" := by decide +kernel

end FieldScript.Numeric
