import FieldScript.Proofs.Numeric.Zero

/-!
# Exactness of arithmetic

An operator fails for three reasons: the left operand has no number, the right one has none, or the
right one is zero and the operator divides. Otherwise two integers give the exact integer wherever
it is one of 64 bits, and everything else is done on floats.
-/

namespace FieldScript

namespace Number

/-- Zero as an integer, and the two floats that are zero. -/
def IsZero (b : Number) : Prop := b = .int 0 ∨ b = .float 0.0 ∨ b = .float (-0.0)

def InRange (n : Int) : Prop := -bound ≤ n ∧ n < bound

instance (n : Int) : Decidable (InRange n) := inferInstanceAs (Decidable (_ ∧ _))

theorem isZero_iff (b : Number) : b.isZero = true ↔ b.IsZero := by
  rw [isZero_eq, toFloat_eq_zero_iff, IsZero]

theorem toInt_inRange (n : Int64) : InRange n.toInt := ⟨n.le_toInt, n.toInt_lt⟩

theorem exists_fit {n : Int} (range : InRange n) : ∃ w, fit n = some w ∧ w.toInt = n := by
  have fits : fit n ≠ none := fun unfit => fit_eq_none_iff.mp unfit range
  obtain ⟨w, fit_eq⟩ := Option.ne_none_iff_exists'.mp fits
  exact ⟨w, fit_eq, toInt_of_fit fit_eq⟩

end Number

/-- The remainder of a quotient that is cut towards zero. -/
structure IsRemainder (a b m : Int) : Prop where
  divides : b ∣ a - m
  small : m.natAbs < b.natAbs
  side : m = 0 ∨ m.sign = a.sign

theorem isRemainder_tmod {b : Int} (nonzero : b ≠ 0) (a : Int) : IsRemainder a b (a.tmod b) where
  divides := ⟨a.tdiv b, by rw [Int.tmod_def]; omega⟩
  small := by
    rw [Int.natAbs_tmod]
    exact Nat.mod_lt _ (Int.natAbs_pos.mpr nonzero)
  side := by
    rw [← Int.sign_eq_zero_iff_zero, Int.sign_tmod]
    split
    · exact .inl rfl
    · exact .inr rfl

/-- Only the opposite of the least integer is too large for a quotient. -/
theorem tdiv_inRange_iff {a b : Int} (range : Number.InRange a) (nonzero : b ≠ 0) :
    Number.InRange (a.tdiv b) ↔ ¬(a = -Number.bound ∧ b = -1) := by
  constructor
  · rintro quotient ⟨rfl, rfl⟩
    exact absurd quotient.2 (by decide)
  · intro other
    simp only [Number.InRange, Number.bound] at range other ⊢
    by_cases one : b = 1
    · rw [one, Int.tdiv_one]
      exact range
    by_cases minus : b = -1
    · rw [minus, Int.tdiv_neg, Int.tdiv_one]
      omega
    · have halved : (a.tdiv b).natAbs ≤ a.natAbs / 2 := by
        rw [Int.natAbs_tdiv]
        exact Nat.div_le_div_left (by omega) (by decide)
      omega

theorem tmod_inRange {b : Int} (range : Number.InRange b) (nonzero : b ≠ 0) (a : Int) :
    Number.InRange (a.tmod b) := by
  have small := (isRemainder_tmod nonzero a).small
  simp only [Number.InRange, Number.bound] at range ⊢
  omega

namespace Arith

/-- The operators that have no result where the right operand is zero. -/
def Divides (op : Arith) : Prop := op = .divide ∨ op = .modulo

/-- The integer that a sum, a difference or a product is. -/
def exactInteger? : Arith → Int → Int → Option Int
  | add, a, b => some (a + b)
  | subtract, a, b => some (a - b)
  | multiply, a, b => some (a * b)
  | divide, _, _ | modulo, _, _ => none

/-- Why an operator has no result, the first reason before the others. -/
inductive Faults (op : Arith) (l r : Value) : OperatorFault → Prop where
  | left (no_number : l.toNumber = none) : Faults op l r (.nonNumeric op.symbol l.display)
  | right {a : Number} (left_number : l.toNumber = some a) (no_number : r.toNumber = none) :
      Faults op l r (.nonNumeric op.symbol r.display)
  | divisor {a b : Number} {fault : OperatorFault} (left_number : l.toNumber = some a)
      (right_number : r.toNumber = some b) (zero : b.IsZero)
      (zero_fault : op.zeroFault? = some fault) : Faults op l r fault

variable {op : Arith} {l r : Value} {fault : OperatorFault}

theorem divides_iff : op.Divides ↔ ∃ fault, op.zeroFault? = some fault := by
  cases op <;> simp [Divides, zeroFault?]

theorem exists_faults_iff : (∃ fault, op.Faults l r fault) ↔
    l.toNumber = none ∨ r.toNumber = none ∨
      op.Divides ∧ ∃ b, r.toNumber = some b ∧ b.IsZero := by
  constructor
  · rintro ⟨fault, faults⟩
    cases faults with
    | left no_number => exact .inl no_number
    | right _ no_number => exact .inr (.inl no_number)
    | divisor _ right_number zero zero_fault =>
      exact .inr (.inr ⟨divides_iff.mpr ⟨fault, zero_fault⟩, _, right_number, zero⟩)
  · intro reasons
    cases left_eq : l.toNumber with
    | none => exact ⟨_, .left left_eq⟩
    | some a =>
      rcases reasons with no_left | no_right | ⟨divides, b, right_eq, zero⟩
      · simp [left_eq] at no_left
      · exact ⟨_, .right left_eq no_right⟩
      · obtain ⟨fault, zero_fault⟩ := divides_iff.mp divides
        exact ⟨fault, .divisor left_eq right_eq zero zero_fault⟩

theorem operator_of_faults (faults : op.Faults l r fault) : fault.operator = op.symbol := by
  cases faults with
  | left | right => rfl
  | divisor _ _ _ zero_fault => cases op <;> cases zero_fault <;> rfl

theorem onIntegers_of_exact {m n whole : Int} (h : op.exactInteger? m n = some whole) :
    op.onIntegers m n = Number.fit whole := by
  cases op <;> simp [exactInteger?] at h <;> simp [onIntegers, h]

theorem onIntegers_modulo {m n : Int} (m_range : Number.InRange m) (n_range : Number.InRange n)
    (nonzero : n ≠ 0) (other : ¬(m = -Number.bound ∧ n = -1)) :
    ∃ w, modulo.onIntegers m n = some w ∧ w.toInt = m.tmod n := by
  obtain ⟨q, quotient, -⟩ := Number.exists_fit ((tdiv_inRange_iff m_range nonzero).mpr other)
  rw [onIntegers, quotient, Option.isSome_some, if_pos rfl]
  exact Number.exists_fit (tmod_inRange n_range nonzero m)

theorem onIntegers_modulo_least : modulo.onIntegers (-Number.bound) (-1) = none := by
  decide

end Arith

namespace Value

variable {op : Arith} {l r : Value} {a b : Number} {fault : OperatorFault}

theorem arithmetic_of_numbers (left : l.toNumber = some a) (right : r.toNumber = some b)
    (defined : ¬(op.Divides ∧ b.IsZero)) :
    arithmetic op l r = .ok (ofNumber (op.onNumbers a b)) := by
  rw [Arith.divides_iff, ← Number.isZero_iff] at defined
  simp only [arithmetic, operand, left, right]
  cases zero_fault : op.zeroFault? with
  | some fault =>
    have nonzero : ¬b.isZero = true := fun zero => defined ⟨⟨fault, zero_fault⟩, zero⟩
    change (if _ then _ else _) = _
    rw [if_neg nonzero]
    rfl
  | none => rfl

theorem arithmetic_of_faults (faults : op.Faults l r fault) : arithmetic op l r = .error fault := by
  cases faults with
  | left no_number => simp only [arithmetic, operand, no_number]; rfl
  | right left_number no_number => simp only [arithmetic, operand, left_number, no_number]; rfl
  | divisor left_number right_number zero zero_fault =>
    simp only [arithmetic, operand, left_number, right_number, zero_fault]
    change (if _ then _ else _) = _
    rw [if_pos ((Number.isZero_iff _).mpr zero)]
    rfl

theorem arithmetic_of_no_integer (left : l.toNumber = some a) (right : r.toNumber = some b)
    (defined : ¬(op.Divides ∧ b.IsZero)) (no_integer : op.onIntegerPair a b = none) :
    arithmetic op l r = .ok (.float (op.onFloats a.toFloat b.toFloat)) := by
  rw [arithmetic_of_numbers left right defined, Arith.onNumbers, no_integer]
  rfl

theorem exists_numbers (none_faults : ¬∃ fault, op.Faults l r fault) :
    ∃ a b, l.toNumber = some a ∧ r.toNumber = some b ∧ ¬(op.Divides ∧ b.IsZero) := by
  rw [Arith.exists_faults_iff, not_or, not_or] at none_faults
  obtain ⟨left_number, right_number, no_zero⟩ := none_faults
  obtain ⟨a, left⟩ := Option.ne_none_iff_exists'.mp left_number
  obtain ⟨b, right⟩ := Option.ne_none_iff_exists'.mp right_number
  exact ⟨a, b, left, right, fun ⟨divides, zero⟩ => no_zero ⟨divides, b, right, zero⟩⟩

theorem arithmetic_eq_error_iff : arithmetic op l r = .error fault ↔ op.Faults l r fault := by
  constructor
  · intro failed
    rcases Classical.em (∃ fault, op.Faults l r fault) with ⟨first, faults⟩ | none_faults
    · rw [arithmetic_of_faults faults] at failed
      cases failed
      exact faults
    · obtain ⟨a, b, left, right, defined⟩ := exists_numbers none_faults
      rw [arithmetic_of_numbers left right defined] at failed
      cases failed
  · exact arithmetic_of_faults

section Integers

variable {m n : Int64} (left : l.toNumber = some (.int m)) (right : r.toNumber = some (.int n))

include left right

theorem arithmetic_of_integer {w : Int64} (defined : ¬(op.Divides ∧ (Number.int n).IsZero))
    (fit_eq : op.onIntegers m.toInt n.toInt = some w) : arithmetic op l r = .ok (.int w) := by
  rw [arithmetic_of_numbers left right defined, Arith.onNumbers, Arith.onIntegerPair, fit_eq]
  rfl

/-- A sum, a difference or a product of two integers is exact wherever it is in range. -/
theorem arithmetic_of_exact {whole : Int}
    (exact_eq : op.exactInteger? m.toInt n.toInt = some whole) :
    ((∃ w : Int64, arithmetic op l r = .ok (.int w) ∧ w.toInt = whole) ↔ Number.InRange whole) ∧
      (¬Number.InRange whole → arithmetic op l r =
        .ok (.float (op.onFloats (Number.int m).toFloat (Number.int n).toFloat))) := by
  have defined : ¬(op.Divides ∧ (Number.int n).IsZero) := by
    rintro ⟨rfl | rfl, -⟩ <;> cases exact_eq
  have onIntegers_eq := Arith.onIntegers_of_exact exact_eq
  refine ⟨⟨?_, ?_⟩, ?_⟩
  · rintro ⟨w, -, rfl⟩
    exact Number.toInt_inRange w
  · intro range
    obtain ⟨w, fit_eq, toInt_eq⟩ := Number.exists_fit range
    exact ⟨w, arithmetic_of_integer left right defined (onIntegers_eq.trans fit_eq), toInt_eq⟩
  · intro wide
    exact arithmetic_of_no_integer left right defined
      (onIntegers_eq.trans (Number.fit_eq_none_iff.mpr wide))

theorem arithmetic_modulo (nonzero : n ≠ 0) :
    (m.toInt = -Number.bound ∧ n.toInt = -1 → arithmetic .modulo l r =
      .ok (.float (Numeric.remainder (Number.int m).toFloat (Number.int n).toFloat))) ∧
    (¬(m.toInt = -Number.bound ∧ n.toInt = -1) →
      ∃ w : Int64, arithmetic .modulo l r = .ok (.int w) ∧
        IsRemainder m.toInt n.toInt w.toInt) := by
  have toInt_nonzero : n.toInt ≠ 0 := by
    rwa [← Int64.toInt_zero, Ne, Int64.toInt_inj]
  have defined : ¬(Arith.modulo.Divides ∧ (Number.int n).IsZero) := by
    simp [Number.IsZero, nonzero]
  constructor
  · rintro ⟨least, minus⟩
    apply arithmetic_of_no_integer left right defined
    rw [Arith.onIntegerPair, least, minus, Arith.onIntegers_modulo_least]
  · intro other
    rcases Arith.onIntegers_modulo (Number.toInt_inRange m) (Number.toInt_inRange n)
      toInt_nonzero other with ⟨w, fit_eq, toInt_eq⟩
    refine ⟨w, arithmetic_of_integer left right defined fit_eq, ?_⟩
    rw [toInt_eq]
    exact isRemainder_tmod toInt_nonzero m.toInt

end Integers

theorem negate_of_no_number {v : Value} (no_number : v.toNumber = none) :
    v.negate = .error (.nonNumeric "-" v.display) := by
  simp only [negate, operand, no_number]
  rfl

theorem negate_of_int {v : Value} {n : Int64} (number : v.toNumber = some (.int n)) :
    (n.toInt ≠ -Number.bound → ∃ w : Int64, v.negate = .ok (.int w) ∧ w.toInt = -n.toInt) ∧
      (n.toInt = -Number.bound → v.negate = .ok (.float (-(Number.int n).toFloat))) := by
  have range := Number.toInt_inRange n
  simp only [negate, operand, number, bind, Except.bind]
  constructor
  · intro other
    have opposite_range : Number.InRange (-n.toInt) := by
      simp only [Number.InRange] at range ⊢
      omega
    obtain ⟨w, fit_eq, toInt_eq⟩ := Number.exists_fit opposite_range
    refine ⟨w, ?_, toInt_eq⟩
    rw [fit_eq]
    rfl
  · intro least
    have unfit : Number.fit (-n.toInt) = none := by
      rw [least]
      decide
    rw [unfit]
    rfl

theorem negate_of_float {v : Value} {x : Float} (number : v.toNumber = some (.float x)) :
    v.negate = .ok (.float (-x)) := by
  simp only [negate, operand, number]
  rfl

theorem negate_eq_error_iff {v : Value} :
    v.negate = .error fault ↔ v.toNumber = none ∧ fault = .nonNumeric "-" v.display := by
  cases number : v.toNumber with
  | none => simp [negate_of_no_number number, eq_comm]
  | some n =>
    cases n with
    | int n =>
      by_cases least : n.toInt = -Number.bound
      · simp [(negate_of_int number).2 least]
      · obtain ⟨w, ok, -⟩ := (negate_of_int number).1 least
        simp [ok]
    | float x => simp [negate_of_float number]

/-- An operator fails where an operand has no number or the divisor is zero, and the first of these
reasons is its fault. -/
structure FailsFor (op : Arith) (l r : Value) : Prop where
  fails_iff : (∃ fault, arithmetic op l r = .error fault) ↔
    l.toNumber = none ∨ r.toNumber = none ∨ op.Divides ∧ ∃ b, r.toNumber = some b ∧ b.IsZero
  first : ∀ fault, arithmetic op l r = .error fault ↔ op.Faults l r fault
  operator_eq : ∀ fault, arithmetic op l r = .error fault → fault.operator = op.symbol

/-- A sum, a difference, a product and a remainder of two integers are exact integers wherever these
are in range, a remainder where its quotient is. Otherwise, and always for a quotient, the operation
is done on floats. -/
structure ExactOnIntegers (op : Arith) (l r : Value) (m n : Int64) : Prop where
  exact_iff : ∀ whole, op.exactInteger? m.toInt n.toInt = some whole →
    ((∃ w : Int64, arithmetic op l r = .ok (.int w) ∧ w.toInt = whole) ↔ Number.InRange whole)
  wide : ∀ whole, op.exactInteger? m.toInt n.toInt = some whole → ¬Number.InRange whole →
    arithmetic op l r = .ok (.float (op.onFloats (Number.int m).toFloat (Number.int n).toFloat))
  remainder : op = .modulo → n ≠ 0 → ¬(m.toInt = -Number.bound ∧ n.toInt = -1) →
    ∃ w : Int64, arithmetic op l r = .ok (.int w) ∧ IsRemainder m.toInt n.toInt w.toInt
  remainder_wide : op = .modulo → n ≠ 0 → m.toInt = -Number.bound ∧ n.toInt = -1 →
    arithmetic op l r = .ok (.float (op.onFloats (Number.int m).toFloat (Number.int n).toFloat))
  quotient : op = .divide → n ≠ 0 →
    arithmetic op l r = .ok (.float ((Number.int m).toFloat / (Number.int n).toFloat))

/-- The opposite of a number is exact, but for the least integer, which has it as a float. -/
structure ExactOpposite (v : Value) : Prop where
  fails_iff : ∀ fault, v.negate = .error fault ↔
    v.toNumber = none ∧ fault = .nonNumeric "-" v.display
  integer : ∀ n : Int64, v.toNumber = some (.int n) → n.toInt ≠ -Number.bound →
    ∃ w : Int64, v.negate = .ok (.int w) ∧ w.toInt = -n.toInt
  least : ∀ n : Int64, v.toNumber = some (.int n) → n.toInt = -Number.bound →
    v.negate = .ok (.float (-(Number.int n).toFloat))
  float : ∀ x, v.toNumber = some (.float x) → v.negate = .ok (.float (-x))

/-- Arithmetic is exact or fails. The divisor is tested as a float, which finds no other number than
the three zeros. -/
structure ExactOrFails (op : Arith) (l r : Value) : Prop where
  failure : FailsFor op l r
  zero_iff : ∀ b : Number, (b.toFloat == 0.0) = true ↔ b.IsZero
  integers : ∀ m n : Int64, l.toNumber = some (.int m) → r.toNumber = some (.int n) →
    ExactOnIntegers op l r m n
  floats : ∀ a b x, l.toNumber = some a → r.toNumber = some b → a = .float x ∨ b = .float x →
    ¬(op.Divides ∧ b.IsZero) → arithmetic op l r = .ok (.float (op.onFloats a.toFloat b.toFloat))
  opposite : ∀ v : Value, ExactOpposite v

theorem failsFor (op : Arith) (l r : Value) : FailsFor op l r := by
  constructor
  · simp only [arithmetic_eq_error_iff]
    exact Arith.exists_faults_iff
  · exact fun fault => arithmetic_eq_error_iff
  · intro fault failed
    exact Arith.operator_of_faults (arithmetic_eq_error_iff.mp failed)

theorem exactOnIntegers {m n : Int64} (left : l.toNumber = some (.int m))
    (right : r.toNumber = some (.int n)) : ExactOnIntegers op l r m n := by
  constructor
  · intro whole exact_eq
    exact (arithmetic_of_exact left right exact_eq).1
  · intro whole exact_eq
    exact (arithmetic_of_exact left right exact_eq).2
  · rintro rfl nonzero
    exact (arithmetic_modulo left right nonzero).2
  · rintro rfl nonzero
    exact (arithmetic_modulo left right nonzero).1
  · rintro rfl nonzero
    exact arithmetic_of_no_integer left right (by simp [Number.IsZero, nonzero]) rfl

theorem exactOpposite (v : Value) : ExactOpposite v := by
  constructor
  · exact fun fault => negate_eq_error_iff
  · exact fun n number => (negate_of_int number).1
  · exact fun n number => (negate_of_int number).2
  · exact fun x => negate_of_float

/-- Every operator, on all values, is exact or fails. -/
theorem arithmetic_exact_or_fails (op : Arith) (l r : Value) : ExactOrFails op l r := by
  constructor
  · exact failsFor op l r
  · exact Number.toFloat_eq_zero_iff
  · exact fun m n => exactOnIntegers
  · intro a b x left right float_form defined
    apply arithmetic_of_no_integer left right defined
    obtain rfl | rfl := float_form
    · rfl
    · cases a <;> rfl
  · exact exactOpposite

/-- A difference that is the least integer, its remainder by the text of minus one, and a quotient
by a negative zero. -/
theorem arithmetic_exact_at_least :
    (∃ w : Int64, arithmetic .subtract (.int (-9223372036854775807)) (.int 1) = .ok (.int w) ∧
      w.toInt = -9223372036854775808) ∧
    arithmetic .modulo (.int (-9223372036854775808)) (.text " -1\t") =
      .ok (.float (Numeric.remainder (-9223372036854775808.0) (-1.0))) ∧
    ∃ fault, arithmetic .divide (.text "7") (.text "-0.0") = .error fault := by
  refine ⟨?_, ?_, ?_⟩
  · have integers := (arithmetic_exact_or_fails .subtract (.int (-9223372036854775807))
      (.int 1)).integers _ _ rfl rfl
    exact (integers.exact_iff _ rfl).mpr (by decide)
  · have integers := (arithmetic_exact_or_fails .modulo (.int (-9223372036854775808))
      (.text " -1\t")).integers _ (-1) rfl (by decide +kernel)
    have float := integers.remainder_wide rfl (by decide) (by decide)
    have dividend : (Number.int (-9223372036854775808)).toFloat = -9223372036854775808.0 := by
      decide +kernel
    have divisor : (Number.int (-1)).toFloat = -1.0 := by decide +kernel
    rw [float, dividend, divisor]
    rfl
  · have negative_zero : (text "-0.0").toNumber = some (.float (-0.0)) := by decide +kernel
    have failure := (arithmetic_exact_or_fails .divide (.text "7") (.text "-0.0")).failure
    exact failure.fails_iff.mpr
      (.inr (.inr ⟨.inl rfl, _, negative_zero, .inr (.inr rfl)⟩))

end Value

end FieldScript
