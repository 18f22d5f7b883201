import FieldScript.Eval.Expr
import FieldScript.Proofs.Numeric.Digits
import FieldScript.Proofs.Numeric.Display
import Mathlib

/-!
# Field access

A value is the index of a field by the number it stands for, which has no upper bound and may be
infinite. Main statement: every reference to a field has a value, and by that number alone it is the
line, one of the fields, or empty text.
-/

namespace FieldScript

namespace Numeric

theorem zero_le_iff (x : Float) : 0.0 ≤ x ↔
    parts x = .infinite false ∨
      ∃ negative a, parts x = .finite negative a ∧ (negative = true → a.mantissa = 0) := by
  have zero_eq : (0.0 : Float).toModel.unpack = .zero .positive := by rfl
  change decide ((0.0 : Float).toModel.unpack.le x.toModel.unpack = true) = true ↔ _
  rw [decide_eq_true_iff, zero_eq, parts]
  cases x.toModel.unpack with
  | notANumber => simp [Float.Model.UnpackedFloat.le, Float.Model.UnpackedFloat.compare]
  | infinity sign =>
    cases sign <;>
      simp [Float.Model.UnpackedFloat.le, Float.Model.UnpackedFloat.compare, isNegative]
  | zero sign => simp [Float.Model.UnpackedFloat.le, Float.Model.UnpackedFloat.compare]
  | finite sign mantissa exponent pos =>
    have nonzero : mantissa ≠ 0 := by omega
    cases sign <;>
      simp [Float.Model.UnpackedFloat.le, Float.Model.UnpackedFloat.compare, isNegative, nonzero]

/-- The number of whole units in a float; an infinite one has no end of them. -/
noncomputable def wholePart (x : Float) : ℕ∞ := if x.isFinite then ⌊exactValue x⌋₊ else ⊤

theorem wholePart_of_finite {x : Float} {negative : Bool} {a : Size}
    (h : parts x = .finite negative a) (sign : negative = true → a.mantissa = 0) :
    wholePart x = a.truncate := by
  have value_eq : exactValue x = a.value := by
    rw [exactValue_of_parts h]
    cases negative with
    | false => rfl
    | true => simp [signed, Size.value, sign rfl]
  rw [wholePart, if_pos (isFinite_of_parts h), value_eq, Size.floor_value]

theorem wholePart_of_infinite {x : Float} {negative : Bool} (h : parts x = .infinite negative) :
    wholePart x = ⊤ := by
  rw [wholePart, if_neg]
  intro finite
  obtain ⟨_, _, parts_eq⟩ := parts_of_isFinite finite
  rw [parts_eq] at h
  cases h

end Numeric

open Numeric

namespace Value

/-- The number that a value stands for as an index: an integer or a float that is not below zero,
the float without its fraction, or digits. Other values stand for none. -/
def Indexes : Value → ℕ∞ → Prop
  | int n, k => 0 ≤ n.toInt ∧ k = n.toInt.toNat
  | float x, k => 0.0 ≤ x ∧ k = wholePart x
  | text s, k => IsDigits s.toList ∧ k = digitsValue s.toList

variable {v : Value}

theorem Indexes.unique {j k : ℕ∞} (hj : v.Indexes j) (hk : v.Indexes k) : j = k := by
  cases v with
  | int n => exact hj.2.trans hk.2.symm
  | float x => exact hj.2.trans hk.2.symm
  | text s => exact hj.2.trans hk.2.symm

/-- The index is found as a natural number exactly where it is finite. -/
theorem index?_eq_some_iff (k : ℕ) : v.index? = some k ↔ v.Indexes k := by
  cases v with
  | int n =>
    rw [index?, Indexes]
    split
    · next h => simp [h, eq_comm]
    · next h => simp [h]
  | float x =>
    rw [index?, Indexes, zero_le_iff]
    cases parts_eq : parts x with
    | nan => simp
    | infinite negative => simp [wholePart_of_infinite parts_eq]
    | finite negative a =>
      by_cases below : negative = true ∧ a.mantissa ≠ 0
      · simp [below]
      · have sign : negative = true → a.mantissa = 0 := by simpa using below
        simp [wholePart_of_finite parts_eq sign, eq_comm]
  | text s =>
    rw [index?, Indexes, ← allDigits_iff]
    split
    · next h => simp [h, eq_comm]
    · next h => simp [h]

/-- A value without a number as an index stands for none that is finite. -/
theorem index?_eq_none_iff : v.index? = none ↔ ∀ k : ℕ, ¬v.Indexes k := by
  simp [← index?_eq_some_iff, Option.eq_none_iff_forall_ne_some]

end Value

namespace Record

variable {v : Value} (record : Record)

theorem field_of_indexes {k : ℕ} (h : v.Indexes k) : record.field v = record.fieldAt k := by
  rw [field, (Value.index?_eq_some_iff k).mpr h]
  rfl

theorem field_of_no_index (h : ∀ k : ℕ, ¬v.Indexes k) : record.field v = .text "" := by
  rw [field, Value.index?_eq_none_iff.mpr h]
  rfl

theorem field_of_infinite (h : v.Indexes ⊤) : record.field v = .text "" :=
  record.field_of_no_index fun k hk => absurd (hk.unique h) (ENat.natCast_ne_top k)

theorem fieldAt_of_lt {k : ℕ} (h : k < record.fields.length) :
    record.fieldAt (k + 1) = .ofField record.fields[k] := by
  rw [fieldAt, List.getElem?_eq_getElem h]
  rfl

theorem fieldAt_of_past {k : ℕ} (h : record.fields.length < k) : record.fieldAt k = .text "" := by
  cases k with
  | zero => exact absurd h (Nat.not_lt_zero _)
  | succ k =>
    rw [fieldAt, List.getElem?_eq_none (Nat.le_of_lt_succ h)]
    rfl

theorem field_of_past {k : ℕ∞} (past : record.fields.length < k) (h : v.Indexes k) :
    record.field v = .text "" := by
  cases k with
  | top => exact record.field_of_infinite h
  | coe k => rw [record.field_of_indexes h, record.fieldAt_of_past (Nat.cast_lt.mp past)]

/-- Only the number matters, not the kind or the spelling of the value. -/
theorem field_congr {w : Value} {k : ℕ∞} (hv : v.Indexes k) (hw : w.Indexes k) :
    record.field v = record.field w := by
  cases k with
  | top => rw [record.field_of_infinite hv, record.field_of_infinite hw]
  | coe k => rw [record.field_of_indexes hv, record.field_of_indexes hw]

end Record

/-- A reference to a field never fails. Number zero is the line, each number up to the last field is
that field, and all others and what is no number are empty text; two indexes of one number refer to
the same. -/
theorem Expr.eval_field (store : Store) (record : Record) (index : FieldIndex) (place : Location) :
    let v := index.value store
    let result := (Expr.field index place).eval store record
    (v.Indexes 0 → result = .ok (.text record.line)) ∧
      (∀ (k : ℕ) (h : k < record.fields.length), v.Indexes (k + 1 : ℕ) →
        result = .ok (.ofField record.fields[k])) ∧
      (∀ k : ℕ∞, record.fields.length < k → v.Indexes k → result = .ok (.text "")) ∧
      ((∀ k, ¬v.Indexes k) → result = .ok (.text "")) ∧
      ∀ (other : FieldIndex) (k : ℕ∞), v.Indexes k → (other.value store).Indexes k →
        (Expr.field other place).eval store record = result := by
  intro v result
  have result_eq : result = .ok (record.field v) := rfl
  rw [result_eq]
  refine ⟨fun h => ?_, fun k bound h => ?_, fun k past h => ?_, fun none => ?_,
    fun other k hv hw => ?_⟩
  · rw [record.field_of_indexes (k := 0) h]
    rfl
  · rw [record.field_of_indexes h, record.fieldAt_of_lt bound]
  · rw [record.field_of_past past h]
  · rw [record.field_of_no_index fun k => none k]
  · rw [record.field_congr hv hw]
    rfl

/-- Leading zeros and a fraction do not matter, minus zero is zero, and digits past 64 bits do not
wrap around to the first field. -/
theorem Expr.eval_field_spelled :
    let record : Record := ⟨"a 7 c", ["a", "7", "c"]⟩
    let read (v : Value) :=
      (Expr.field (.var "i" .start) .start).eval (Store.start.set "i" v) record
    (Value.text "0002").Indexes 2 ∧ read (.text "0002") = .ok (.int 7) ∧
      (Value.float 2.75).Indexes 2 ∧ read (.float 2.75) = .ok (.int 7) ∧
      (Value.float (-0.0)).Indexes 0 ∧ read (.float (-0.0)) = .ok (.text "a 7 c") ∧
      (Value.text "18446744073709551617").Indexes 18446744073709551617 ∧
      read (.text "18446744073709551617") = .ok (.text "") := by
  intro record read
  have stored (v : Value) : (FieldIndex.var "i" .start).value (Store.start.set "i" v) = v := by
    rw [FieldIndex.value, Store.get_set, if_pos rfl]
  have access (v : Value) := eval_field (Store.start.set "i" v) record (.var "i" .start) .start
  simp only [stored] at access
  have zeros : (Value.text "0002").Indexes 2 :=
    (Value.index?_eq_some_iff 2).mp (by decide +kernel)
  have fraction : (Value.float 2.75).Indexes 2 :=
    (Value.index?_eq_some_iff 2).mp (by decide +kernel)
  have minus_zero : (Value.float (-0.0)).Indexes 0 :=
    (Value.index?_eq_some_iff 0).mp (by decide +kernel)
  have wide : (Value.text "18446744073709551617").Indexes 18446744073709551617 :=
    (Value.index?_eq_some_iff 18446744073709551617).mp (by decide +kernel)
  have past : ((3 : ℕ) : ℕ∞) < (18446744073709551617 : ℕ) := Nat.cast_lt.mpr (by decide)
  exact ⟨zeros, ((access _).2.1 1 (by decide) zeros).trans (by decide +kernel), fraction,
    ((access _).2.1 1 (by decide) fraction).trans (by decide +kernel), minus_zero,
    (access _).1 minus_zero, wide, (access _).2.2.1 _ past wide⟩

end FieldScript
