import FieldScript.Proofs.Numeric.Rounding
import FieldScript.Value.Comparison
import Mathlib

/-!
# The order of floats

A float has a rank, by its kind, its exponent and its mantissa. One float is below another when both
are numbers and its rank is lower, so a float that is not a number compares as equal to every other.
The rank of the float of an integer follows the integer, and where one of two integers is below
`2 ^ 53` in size it tells them apart.
-/

namespace FieldScript

namespace Numeric

open Float.Model Float.Model.UnpackedFloat

/-- Kind, exponent and mantissa, the last two turned round below zero. -/
def rankOf : UnpackedFloat → Int ×ₗ Int ×ₗ Int
  | .infinity .negative => toLex (-2, toLex (0, 0))
  | .finite .negative mantissa exponent _ => toLex (-1, toLex (-exponent, -mantissa))
  | .zero _ | .notANumber => toLex (0, toLex (0, 0))
  | .finite .positive mantissa exponent _ => toLex (1, toLex (exponent, mantissa))
  | .infinity .positive => toLex (2, toLex (0, 0))

def rank (x : Float) : Int ×ₗ Int ×ₗ Int := rankOf x.toModel.unpack

theorem compare_eq_lt_iff (x y : UnpackedFloat) :
    x.compare y = some .lt ↔ x.isNaN = false ∧ y.isNaN = false ∧ rankOf x < rankOf y := by
  cases x with
  | notANumber => simp [UnpackedFloat.compare, UnpackedFloat.isNaN]
  | infinity sign =>
    cases y with
    | infinity sign' => cases sign <;> cases sign' <;> decide
    | finite sign' =>
      cases sign <;> cases sign' <;>
        simp [UnpackedFloat.compare, UnpackedFloat.isNaN, rankOf, Prod.Lex.toLex_lt_toLex]
    | _ =>
      cases sign <;>
        simp [UnpackedFloat.compare, UnpackedFloat.isNaN, rankOf, Prod.Lex.toLex_lt_toLex]
  | zero sign =>
    cases y with
    | infinity sign' | finite sign' =>
      cases sign' <;>
        simp [UnpackedFloat.compare, UnpackedFloat.isNaN, rankOf, Prod.Lex.toLex_lt_toLex]
    | _ => simp [UnpackedFloat.compare, UnpackedFloat.isNaN, rankOf]
  | finite sign =>
    cases y with
    | infinity sign' =>
      cases sign <;> cases sign' <;>
        simp [UnpackedFloat.compare, UnpackedFloat.isNaN, rankOf, Prod.Lex.toLex_lt_toLex]
    | finite sign' =>
      cases sign <;> cases sign' <;>
        simp [UnpackedFloat.compare, UnpackedFloat.isNaN, rankOf, Prod.Lex.toLex_lt_toLex,
          Ordering.then_eq_lt, Ordering.then_eq_gt, Int.compare_eq_lt, Int.compare_eq_gt,
          Nat.compare_eq_lt, Nat.compare_eq_gt]
    | _ =>
      cases sign <;>
        simp [UnpackedFloat.compare, UnpackedFloat.isNaN, rankOf, Prod.Lex.toLex_lt_toLex]

theorem lt_iff (x y : Float) : x < y ↔ x.isNaN = false ∧ y.isNaN = false ∧ rank x < rank y := by
  change (decide ((x.toModel.unpack.compare y.toModel.unpack == some .lt) = true)) = true ↔ _
  rw [decide_eq_true_iff, beq_iff_eq]
  exact compare_eq_lt_iff x.toModel.unpack y.toModel.unpack

theorem not_lt_of_lt {x y : Float} (h : x < y) : ¬y < x := by
  rw [lt_iff] at h ⊢
  rintro ⟨-, -, above⟩
  exact h.2.2.asymm above

theorem ofNat_ne {n : Nat} {b : BitVec 11} (small : n < 2048) (ne : n ≠ b.toNat) :
    BitVec.ofNat 11 n ≠ b := by
  rintro rfl
  rw [BitVec.toNat_ofNat] at ne
  omega

/-- A mantissa of full width and an exponent that is not too large are read back as they are. -/
theorem unpack_pack_finite {mantissa : Nat} {exponent : Int} (mantissa_pos : 0 < mantissa)
    (wide : 2 ^ 52 ≤ mantissa) (narrow : mantissa < 2 ^ 53) (low : -52 ≤ exponent)
    (high : exponent ≤ 971) (sign : Sign) :
    (Float.Model.pack (.finite sign mantissa exponent mantissa_pos)).unpack =
      .finite sign mantissa exponent mantissa_pos := by
  have log2_eq : mantissa.log2 = 52 := (Nat.log2_eq_iff mantissa_pos.ne').mpr ⟨wide, narrow⟩
  have biased : (exponent + (Format.binary64.exponentBias : Nat) +
      (Format.binary64.mantissaBitsWithoutImplicit : Nat)).toNat = (exponent + 1075).toNat := by
    simp [Format.exponentBias]
    omega
  have normal : 52 + 1 = Format.binary64.mantissaBits := rfl
  have exponent_small : (exponent + 1075).toNat < 2048 := by omega
  have ne_ones : BitVec.ofNat 11 (exponent + 1075).toNat ≠ -1#11 :=
    ofNat_ne exponent_small (by simp; omega)
  have ne_zeros : BitVec.ofNat 11 (exponent + 1075).toNat ≠ 0#11 :=
    ofNat_ne exponent_small (by simp; omega)
  have mantissa_eq : (1#1 ++ BitVec.ofNat 52 mantissa).toNat = mantissa := by
    rw [BitVec.toNat_append, ← Nat.shiftLeft_add_eq_or_of_lt (BitVec.ofNat 52 mantissa).isLt,
      BitVec.toNat_ofNat, Nat.shiftLeft_eq]
    simp
    omega
  change UnpackedFloat.unpack .binary64 (UnpackedFloat.pack .binary64 _) = _
  rw [UnpackedFloat.pack]
  simp only [log2_eq, biased]
  rw [if_neg (by simp; omega), if_pos normal, UnpackedFloat.unpack]
  simp only [unpackMantissa_packComponents, unpackExponent_packComponents,
    unpackSign_packComponents, Sign.ofBitVec_toBitVec]
  rw [if_neg ne_ones, if_neg ne_zeros]
  simp [mantissa_eq, Format.exponentBias]
  omega

/-- The rank of a float that is zero or has a mantissa of full width, and the number that its
exponent and mantissa make up. -/
inductive RankedAs : Int ×ₗ Int ×ₗ Int → Int → Prop where
  | zero : RankedAs (toLex (0, toLex (0, 0))) 0
  | positive {exponent mantissa : Int} (low : -52 ≤ exponent) (wide : 2 ^ 52 ≤ mantissa)
      (narrow : mantissa < 2 ^ 53) :
      RankedAs (toLex (1, toLex (exponent, mantissa))) ((exponent + 52) * 2 ^ 52 + mantissa)
  | negative {exponent mantissa : Int} (low : -52 ≤ exponent) (wide : 2 ^ 52 ≤ mantissa)
      (narrow : mantissa < 2 ^ 53) :
      RankedAs (toLex (-1, toLex (-exponent, -mantissa)))
        (-((exponent + 52) * 2 ^ 52 + mantissa))

theorem lex_lt_iff {e f m n : Int} (m_wide : 2 ^ 52 ≤ m) (m_narrow : m < 2 ^ 53)
    (n_wide : 2 ^ 52 ≤ n) (n_narrow : n < 2 ^ 53) :
    (e < f ∨ e = f ∧ m < n) ↔ (e + 52) * 2 ^ 52 + m < (f + 52) * 2 ^ 52 + n := by
  rcases lt_trichotomy e f with lower | rfl | higher
  · omega
  · omega
  · omega

theorem RankedAs.lt_iff {r s : Int ×ₗ Int ×ₗ Int} {k l : Int} (h : RankedAs r k)
    (h' : RankedAs s l) : r < s ↔ k < l := by
  cases h with
  | zero =>
    cases h' with
    | zero => simp
    | positive | negative => simp [Prod.Lex.toLex_lt_toLex]; omega
  | positive low wide narrow =>
    cases h' with
    | zero | negative => simp [Prod.Lex.toLex_lt_toLex]; omega
    | positive low' wide' narrow' =>
      rw [← lex_lt_iff wide narrow wide' narrow']
      simp [Prod.Lex.toLex_lt_toLex]
  | negative low wide narrow =>
    cases h' with
    | zero | positive => simp [Prod.Lex.toLex_lt_toLex]; omega
    | negative low' wide' narrow' =>
      rw [neg_lt_neg_iff, ← lex_lt_iff wide' narrow' wide narrow]
      simp [Prod.Lex.toLex_lt_toLex]
      omega

def signedOrdinal (n : Int) : Int := if n < 0 then -ordinal n.natAbs else ordinal n.natAbs

/-- An integer other than zero has a float of full width. -/
theorem unpack_ofInt {n : Int} (nonzero : n ≠ 0) (small : n.natAbs ≤ 2 ^ 63) :
    ∃ mantissa exponent mantissa_pos,
      (ofInt n).toModel.unpack =
        .finite (if n < 0 then .negative else .positive) mantissa exponent mantissa_pos ∧
      2 ^ 52 ≤ mantissa ∧ mantissa < 2 ^ 53 ∧ -52 ≤ exponent ∧
      (exponent + 52) * 2 ^ 52 + mantissa = ordinal n.natAbs := by
  have pos : 0 < n.natAbs := Int.natAbs_pos.mpr nonzero
  rcases round_of_pos pos with
    ⟨mantissa, exponent, mantissa_pos, round_eq, wide, narrow, ordinal_eq, low, high⟩
  have log2_small : n.natAbs.log2 < 64 := (Nat.log2_lt pos.ne').mpr (by omega)
  refine ⟨mantissa, exponent, mantissa_pos, ?_, wide, narrow, low, ordinal_eq⟩
  have unpack_eq (sign : Sign) :
      (Float.Model.pack (UnpackedFloat.round .binary64 sign n.natAbs 0)).unpack =
        .finite sign mantissa exponent mantissa_pos := by
    rw [round_eq]
    exact unpack_pack_finite mantissa_pos wide narrow low (by omega) sign
  change (Float.Model.pack (UnpackedFloat.normalize .binary64 n 0 .positive)).unpack = _
  rw [UnpackedFloat.normalize]
  by_cases negative : n < 0
  · have size : (-n).toNat = n.natAbs := by omega
    rw [Int.compare_eq_lt.mpr negative, size, unpack_eq, if_pos negative]
  · have size : n.toNat = n.natAbs := by omega
    rw [Int.compare_eq_gt.mpr (by omega), size, unpack_eq, if_neg negative]

theorem isNaN_ofInt {n : Int} (small : n.natAbs ≤ 2 ^ 63) : (ofInt n).isNaN = false := by
  change (ofInt n).toModel.unpack.isNaN = false
  by_cases zero : n = 0
  · rw [zero]
    rfl
  · obtain ⟨mantissa, exponent, mantissa_pos, unpack_eq, -⟩ := unpack_ofInt zero small
    rw [unpack_eq]
    rfl

theorem rankedAs_ofInt {n : Int} (small : n.natAbs ≤ 2 ^ 63) :
    RankedAs (rank (ofInt n)) (signedOrdinal n) := by
  by_cases zero : n = 0
  · rw [zero]
    exact .zero
  · rcases unpack_ofInt zero small with
      ⟨mantissa, exponent, mantissa_pos, unpack_eq, wide, narrow, low, ordinal_eq⟩
    rw [rank, unpack_eq, signedOrdinal, ← ordinal_eq]
    by_cases negative : n < 0
    · rw [if_pos negative, if_pos negative]
      exact .negative low (by omega) (by omega)
    · rw [if_neg negative, if_neg negative]
      exact .positive low (by omega) (by omega)

theorem signedOrdinal_mono {m n : Int} (h : m ≤ n) : signedOrdinal m ≤ signedOrdinal n := by
  unfold signedOrdinal
  split <;> split
  · have := ordinal_mono (m := n.natAbs) (n := m.natAbs) (by omega)
    omega
  · omega
  · omega
  · have := ordinal_mono (m := m.natAbs) (n := n.natAbs) (by omega)
    omega

theorem signedOrdinal_strictMono {m n : Int} (h : m < n)
    (small : m.natAbs < 2 ^ 53 ∨ n.natAbs < 2 ^ 53) : signedOrdinal m < signedOrdinal n := by
  unfold signedOrdinal
  split <;> split
  · have := ordinal_strictMono (m := n.natAbs) (n := m.natAbs) (by omega) (by omega)
    omega
  · have := ordinal_pos (m := m.natAbs) (by omega)
    omega
  · omega
  · have := ordinal_strictMono (m := m.natAbs) (n := n.natAbs) (by omega) (by omega)
    omega

theorem rank_ofInt_mono {m n : Int} (m_small : m.natAbs ≤ 2 ^ 63) (n_small : n.natAbs ≤ 2 ^ 63)
    (h : m ≤ n) : rank (ofInt m) ≤ rank (ofInt n) := by
  rw [← not_lt, (rankedAs_ofInt n_small).lt_iff (rankedAs_ofInt m_small), not_lt]
  exact signedOrdinal_mono h

/-- Two integers with one float are both of `2 ^ 53` or more. -/
theorem rank_ofInt_strictMono {m n : Int} (m_small : m.natAbs ≤ 2 ^ 63)
    (n_small : n.natAbs ≤ 2 ^ 63) (h : m < n) (exact_one : m.natAbs < 2 ^ 53 ∨ n.natAbs < 2 ^ 53) :
    rank (ofInt m) < rank (ofInt n) := by
  rw [(rankedAs_ofInt m_small).lt_iff (rankedAs_ofInt n_small)]
  exact signedOrdinal_strictMono h exact_one

end Numeric

namespace Number

open Numeric

theorem compareFloats_swap (x y : Float) : compareFloats y x = (compareFloats x y).swap := by
  unfold compareFloats
  by_cases below : x < y
  · simp [below, not_lt_of_lt below]
  · by_cases above : y < x <;> simp [below, above]

/-- Two floats that are numbers compare by their ranks. -/
theorem compareFloats_eq {x y : Float} (x_number : x.isNaN = false) (y_number : y.isNaN = false) :
    compareFloats x y = Ord.compare (rank x) (rank y) := by
  have below_iff : x < y ↔ rank x < rank y := by
    rw [lt_iff]
    simp only [x_number, y_number, true_and]
  have above_iff : y < x ↔ rank y < rank x := by
    rw [lt_iff]
    simp only [x_number, y_number, true_and]
  simp only [compareFloats, below_iff, above_iff]
  rw [eq_comm]
  by_cases below : rank x < rank y
  · rw [if_pos below]
    exact compare_lt_iff_lt.mpr below
  · rw [if_neg below]
    by_cases above : rank y < rank x
    · rw [if_pos above]
      exact compare_gt_iff_gt.mpr above
    · rw [if_neg above]
      exact compare_eq_iff_eq.mpr (le_antisymm (not_lt.mp above) (not_lt.mp below))

end Number

end FieldScript
