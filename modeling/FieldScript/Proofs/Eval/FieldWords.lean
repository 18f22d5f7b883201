import FieldScript.Proofs.Eval.FieldAccess
import FieldScript.Proofs.Numeric.Rounding

/-!
# Fields by words

The word of an index is its number, up to the largest word, which stands for all larger ones. Main
statement: while the last field has a smaller number than that, the word finds the field of the
value and looks up no field that a record does not have.
-/

namespace FieldScript

namespace Numeric

open Float.Model Float.Model.UnpackedFloat

theorem roundToInt_positive (m : ℕ) (e : ℤ) :
    roundToInt .positive m e = (Size.mk m e).truncate := by
  have left : (e - 0).toNat = e.toNat := by omega
  have right : (0 - (e - ((e - 0).toNat : ℤ))).toNat = (-e).toNat := by omega
  simp only [roundToInt, decreaseExponent, shiftToExponent, mantissa_shift,
    mantissa_ofMantissaAndAccuracy, Sign.apply, right]
  rw [Nat.shiftRight_eq_div_pow, Nat.shiftLeft_eq, left]
  rfl

theorem toNat_ofNatClamp (n : ℕ) : (UInt64.ofNatClamp n).toNat = min n (UInt64.size - 1) := by
  by_cases lt : n < UInt64.size
  · rw [UInt64.toNat_ofNatClamp_of_lt lt]
    omega
  · rw [UInt64.toNat_ofNatClamp_of_le (Nat.le_of_not_lt lt)]
    omega

variable {x : Float}

theorem toNat_toUInt64 (x : Float) : x.toUInt64.toNat =
    min (toInt 0 (UInt64.size - 1) x.toModel.unpack).toNat (UInt64.size - 1) :=
  toNat_ofNatClamp _

theorem toUInt64_of_infinite (h : parts x = .infinite false) :
    x.toUInt64.toNat = UInt64.size - 1 := by
  rw [parts] at h
  rw [toNat_toUInt64]
  cases unpacked : x.toModel.unpack with
  | infinity sign =>
    cases sign with
    | positive => rfl
    | negative => simp [unpacked, isNegative] at h
  | _ => simp [unpacked] at h

theorem toUInt64_of_finite {negative : Bool} {a : Size} (h : parts x = .finite negative a)
    (sign : negative = true → a.mantissa = 0) :
    x.toUInt64.toNat = min a.truncate (UInt64.size - 1) := by
  rw [parts] at h
  rw [toNat_toUInt64]
  cases unpacked : x.toModel.unpack with
  | zero s =>
    simp only [unpacked, Parts.finite.injEq] at h
    obtain ⟨-, rfl⟩ := h
    rfl
  | finite s m e pos =>
    simp only [unpacked, Parts.finite.injEq] at h
    obtain ⟨rfl, rfl⟩ := h
    cases s with
    | positive => rw [toInt, roundToInt_positive, Int.toNat_natCast]
    | negative => exact absurd (sign rfl) (Nat.ne_of_gt pos)
  | _ => simp [unpacked] at h

end Numeric

open Numeric

namespace Value

variable {v : Value} {k : ℕ}

theorem toNat_toUInt64_of_nonneg {n : Int64} (h : 0 ≤ n.toInt) :
    n.toUInt64.toNat = n.toInt.toNat := by
  have le : 0 ≤ n := Int64.le_iff_toInt_le.mpr h
  exact Int64.toNat_toUInt64_of_le le

/-- A number below the largest word is the word of its index. -/
theorem word?_of_index (h : v.index? = some k) (lt : k < UInt64.size - 1) :
    ∃ w, v.word? = some w ∧ w.toNat = k := by
  cases v with
  | int n =>
    simp only [index?, Option.ite_none_right_eq_some, Option.some.injEq] at h
    obtain ⟨nonneg, rfl⟩ := h
    exact ⟨n.toUInt64, by rw [word?, if_pos nonneg], toNat_toUInt64_of_nonneg nonneg⟩
  | float x =>
    cases parts_eq : parts x with
    | finite negative a =>
      simp only [index?, parts_eq, Option.ite_none_left_eq_some, Option.some.injEq, not_and_or,
        not_not] at h
      obtain ⟨sign, rfl⟩ := h
      have sign : negative = true → a.mantissa = 0 := sign.neg_resolve_left
      have nonneg : 0.0 ≤ x := (zero_le_iff x).mpr (.inr ⟨negative, a, parts_eq, sign⟩)
      refine ⟨x.toUInt64, by rw [word?, if_pos nonneg], ?_⟩
      rw [toUInt64_of_finite parts_eq sign, Nat.min_eq_left (Nat.le_of_lt lt)]
    | _ => simp [index?, parts_eq] at h
  | text s =>
    simp only [index?, Option.ite_none_right_eq_some, Option.some.injEq] at h
    obtain ⟨digits, rfl⟩ := h
    have fits : digitsValue s.toList < UInt64.size := by omega
    exact ⟨_, by rw [word?, if_pos ⟨digits, fits⟩], UInt64.toNat_ofNat_of_lt' fits⟩

/-- Every other value has the largest word or none. -/
theorem word?_of_past (h : ∀ k, v.index? = some k → UInt64.size - 1 ≤ k) {w : UInt64}
    (word : v.word? = some w) : w.toNat = UInt64.size - 1 := by
  have le : w.toNat ≤ UInt64.size - 1 := Nat.le_pred_of_lt w.toNat_lt_size
  cases v with
  | int n =>
    simp only [word?, Option.ite_none_right_eq_some, Option.some.injEq] at word
    obtain ⟨nonneg, rfl⟩ := word
    have past := h n.toInt.toNat (by rw [index?, if_pos nonneg])
    rw [toNat_toUInt64_of_nonneg nonneg] at le ⊢
    exact Nat.le_antisymm le past
  | float x =>
    simp only [word?, Option.ite_none_right_eq_some, Option.some.injEq] at word
    obtain ⟨nonneg, rfl⟩ := word
    obtain parts_eq | ⟨negative, a, parts_eq, sign⟩ := (zero_le_iff x).mp nonneg
    · exact toUInt64_of_infinite parts_eq
    · have past := h a.truncate (by simp [index?, parts_eq]; exact sign)
      rw [toUInt64_of_finite parts_eq sign, Nat.min_eq_right past]
  | text s =>
    simp only [word?, Option.ite_none_right_eq_some, Option.some.injEq] at word
    obtain ⟨⟨digits, fits⟩, rfl⟩ := word
    have past := h (digitsValue s.toList) (by rw [index?, if_pos digits])
    have value_eq : (UInt64.ofNat (digitsValue s.toList)).toNat = digitsValue s.toList :=
      UInt64.toNat_ofNat_of_lt' fits
    rw [value_eq] at le ⊢
    exact Nat.le_antisymm le past

end Value

namespace Record

variable (record : Record) {v : Value} {k : ℕ} {w : UInt64}

theorem fieldOfWord?_of_word (word : v.word? = some w) (number : w.toNat = k) :
    record.fieldOfWord? v = some (record.fieldAt k) := by
  rw [fieldOfWord?, word]
  cases k with
  | zero =>
    have zero : w = 0 := UInt64.toNat_inj.mp number
    simp [zero, fieldAt]
  | succ k =>
    have nonzero : w ≠ 0 := by
      rintro rfl
      cases number
    have one_le : 1 ≤ w := UInt64.le_iff_toNat_le.mpr (number ▸ Nat.succ_le_succ (Nat.zero_le k))
    have before : (w - 1).toNat = k := by
      rw [UInt64.toNat_sub_of_le _ _ one_le, number]
      rfl
    simp only [if_neg nonzero, number, before]
    by_cases le : k + 1 ≤ record.fields.length
    · rw [if_pos le, List.getElem?_eq_getElem le, record.fieldAt_of_lt le]
      rfl
    · rw [if_neg le, record.fieldAt_of_past (Nat.lt_of_not_le le)]

theorem field_of_past_index (past : ∀ k, v.index? = some k → record.fields.length < k) :
    record.field v = .text "" := by
  cases found : v.index? with
  | none => rw [field, found, Option.elim_none]
  | some k => rw [field, found, Option.elim_some, record.fieldAt_of_past (past k found)]

/-- The word of a value finds what its number finds, in every record whose fields it can count. -/
theorem fieldOfWord?_eq_some (v : Value) (countable : record.fields.length < UInt64.size - 1) :
    record.fieldOfWord? v = some (record.field v) := by
  by_cases small : ∃ k, v.index? = some k ∧ k < UInt64.size - 1
  · obtain ⟨k, found, lt⟩ := small
    obtain ⟨w, word, number⟩ := Value.word?_of_index found lt
    rw [record.fieldOfWord?_of_word word number, field, found, Option.elim_some]
  · have past (k : ℕ) (found : v.index? = some k) : UInt64.size - 1 ≤ k :=
      Nat.le_of_not_lt fun lt => small ⟨k, found, lt⟩
    rw [record.field_of_past_index fun k found => Nat.lt_of_lt_of_le countable (past k found)]
    cases word : v.word? with
    | none => rw [fieldOfWord?, word]
    | some w =>
      have largest := Value.word?_of_past past word
      rw [record.fieldOfWord?_of_word word largest, record.fieldAt_of_past countable]

end Record

end FieldScript
