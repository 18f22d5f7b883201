import FieldScript.Numeric.Significant
import FieldScript.Proofs.Numeric.Plain
import Mathlib

/-!
# Decimal texts

The number that a decimal text denotes, and its two forms: in full, or with one digit before the
point and an exponent. Digits of which some stand behind a point keep their value when the zeros at
the end are dropped, and a text of digits without a point keeps all its zeros.
-/

namespace FieldScript.Numeric

open Decimal

/-- The number that a wide numeral stands for, before it is rounded to a float. -/
def denoted (text : List Char) : Option ℚ :=
  let (negative, body) := takeSign text
  let (whole, fraction, rest) := takeDigits body
  let fraction := fraction.getD []
  if whole.isEmpty && fraction.isEmpty then none
  else
    (readExponent rest).map fun exponent : ℤ =>
      (applySign negative (digitsValue (whole ++ fraction)) : ℚ) *
        10 ^ (exponent - fraction.length)

def signed (negative : Bool) (q : ℚ) : ℚ := if negative then -q else q

theorem applySign_mul (negative : Bool) (n : ℕ) (unit : ℚ) :
    (applySign negative n : ℚ) * unit = signed negative (n * unit) := by
  cases negative <;> simp [applySign, signed]

/-- Digits behind a point, of which the last is not zero. -/
def IsFraction (digits : List Char) : Prop :=
  (∀ c ∈ digits, c.isDigit) ∧ digits.getLast? ≠ some '0'

/-- Perhaps a minus sign, digits without a needless zero in front, and perhaps a point and further
digits. -/
def IsPlain (text : List Char) : Prop :=
  ∃ negative whole fraction, text = withSign negative (withPoint whole fraction) ∧
    IsDigits whole ∧ (whole.head? = some '0' → whole = ['0']) ∧ IsFraction fraction

/-- Perhaps a minus sign, one digit, perhaps a point and at most five further digits, and an
exponent with a sign and two digits or more. -/
def IsScientific (text : List Char) : Prop :=
  ∃ negative lead fraction sign exponent,
    text = withSign negative (withPoint [lead] fraction ++ 'e' :: sign :: exponent) ∧
      (lead.isDigit ∧ lead ≠ '0') ∧ (IsFraction fraction ∧ fraction.length ≤ 5) ∧
      (sign = '-' ∨ sign = '+') ∧ IsDigits exponent ∧ 2 ≤ exponent.length

theorem not_digit_of_mem {c : Char} (h : c.isDigit = false) {digits : List Char}
    (all : ∀ d ∈ digits, d.isDigit) : c ∉ digits := by
  intro member
  rw [all c member] at h
  contradiction

theorem mem_withPoint {c : Char} {whole fraction : List Char} (h : c ∈ withPoint whole fraction) :
    c ∈ whole ∨ c = '.' ∨ c ∈ fraction := by
  rw [withPoint] at h
  split at h
  · exact .inl h
  · simpa using h

theorem IsPlain.not_scientific {text : List Char} (h : IsPlain text) : ¬IsScientific text := by
  rintro ⟨negative', lead, more, sign, exponent, text_eq', -⟩
  obtain ⟨negative, whole, fraction, text_eq, whole_digits, -, fraction_digits, -⟩ := h
  have letter : 'e' ∈ text := by
    rw [text_eq']
    cases negative' <;> simp [withSign]
  have body : 'e' ∈ withPoint whole fraction := by
    rw [text_eq] at letter
    cases negative
    · exact letter
    · simpa [withSign] using letter
  rcases mem_withPoint body with in_whole | point | in_fraction
  · exact not_digit_of_mem (by decide) whole_digits.2 in_whole
  · exact absurd point (by decide)
  · exact not_digit_of_mem (by decide) fraction_digits in_fraction

theorem takeSign_withSign {negative : Bool} {body : List Char} {c : Char} (digit : c.isDigit = true)
    (head : body.head? = some c) : takeSign (withSign negative body) = (negative, body) := by
  cases negative with
  | false => exact takeSign_of_digit digit head
  | true => rfl

theorem head_withPoint {whole : List Char} (digits : IsDigits whole) (fraction rest : List Char) :
    ∃ c, c.isDigit = true ∧ (withPoint whole fraction ++ rest).head? = some c := by
  rw [withPoint]
  split
  · exact digits.head rest
  · rw [List.append_assoc]
    exact digits.head _

theorem takeDigits_withPoint {whole fraction rest : List Char}
    (whole_digits : ∀ c ∈ whole, c.isDigit) (fraction_digits : ∀ c ∈ fraction, c.isDigit)
    (stops : NumberStops rest) :
    ∃ digits, takeDigits (withPoint whole fraction ++ rest) = (whole, digits, rest) ∧
      digits.getD [] = fraction := by
  cases fraction with
  | nil => exact ⟨none, takeDigits_of_numberStops whole_digits stops, rfl⟩
  | cons c more =>
    have taken := takeDigits_of_point whole_digits fraction_digits stops.digits
    refine ⟨some (c :: more), ?_, rfl⟩
    rw [← taken]
    simp [withPoint]

theorem denoted_of_parts (negative : Bool) {whole fraction rest : List Char} {exponent : ℤ}
    (whole_digits : IsDigits whole) (fraction_digits : ∀ c ∈ fraction, c.isDigit)
    (stops : NumberStops rest) (exponent_eq : readExponent rest = some exponent) :
    denoted (withSign negative (withPoint whole fraction ++ rest)) =
      some ((applySign negative (digitsValue (whole ++ fraction)) : ℚ) *
        10 ^ (exponent - fraction.length)) := by
  obtain ⟨c, digit, head⟩ := head_withPoint whole_digits fraction rest
  obtain ⟨digits, taken, digits_eq⟩ := takeDigits_withPoint whole_digits.2 fraction_digits stops
  have some_digit : whole.isEmpty = false := by simpa using whole_digits.1
  simp only [denoted, takeSign_withSign digit head, taken, digits_eq, some_digit, exponent_eq]
  rfl

theorem dropZeros_append_zeros (digits : List Char) :
    ∃ k, digits = dropZeros digits ++ List.replicate k '0' := by
  refine ⟨(digits.rtakeWhile (· = '0')).length, ?_⟩
  have zeros : digits.rtakeWhile (· = '0') =
      List.replicate (digits.rtakeWhile (· = '0')).length '0' :=
    List.eq_replicate_iff.mpr ⟨rfl, fun c member => by simpa using List.mem_rtakeWhile_imp member⟩
  rw [← zeros]
  exact List.rdropWhile_append_rtakeWhile.symm

theorem getLast?_dropZeros (digits : List Char) : (dropZeros digits).getLast? ≠ some '0' := by
  intro last
  have some_digit : dropZeros digits ≠ [] := by
    intro none
    simp [none] at last
  have not_zero : ¬decide ((dropZeros digits).getLast some_digit = '0') = true :=
    List.rdropWhile_last_not _ _ some_digit
  rw [List.getLast?_eq_some_getLast some_digit, Option.some.injEq] at last
  exact not_zero (decide_eq_true last)

theorem dropZeros_point (whole fraction : List Char) :
    dropZeros (whole ++ '.' :: fraction) = whole ++ '.' :: dropZeros fraction := by
  have point : ('.' :: whole.reverse).dropWhile (· = '0') = '.' :: whole.reverse := rfl
  rw [dropZeros, dropZeros, List.reverse_append, List.reverse_cons, List.append_assoc,
    List.singleton_append, List.dropWhile_append, point]
  split
  · next none => simp [List.isEmpty_iff.mp none]
  · simp

theorem isFraction_dropZeros {digits : List Char} (all : ∀ c ∈ digits, c.isDigit) :
    IsFraction (dropZeros digits) :=
  ⟨fun c member => all c ((List.rdropWhile_prefix _ digits).subset member),
    getLast?_dropZeros digits⟩

/-- Only zeros behind a point are dropped, and the point when nothing is left behind it. -/
theorem trimFraction_withPoint {whole fraction : List Char} (whole_digits : ∀ c ∈ whole, c.isDigit)
    (fraction_digits : ∀ c ∈ fraction, c.isDigit) :
    trimFraction (withPoint whole fraction) = withPoint whole (dropZeros fraction) := by
  cases fraction with
  | nil =>
    have no_point : '.' ∉ whole := not_digit_of_mem (by decide) whole_digits
    change trimFraction whole = whole
    rw [trimFraction, if_neg no_point]
  | cons c more =>
    have point : '.' ∈ whole ++ '.' :: c :: more := by simp
    change trimFraction (whole ++ '.' :: c :: more) = _
    rw [trimFraction, if_pos point, dropZeros_point]
    have kept_digits := (isFraction_dropZeros fraction_digits).1
    generalize dropZeros (c :: more) = kept at kept_digits
    cases kept with
    | nil => simp [withPoint]
    | cons d kept =>
      have last_digit : (d :: kept).getLast? ≠ some '.' := by
        intro last
        exact not_digit_of_mem (by decide) kept_digits (List.mem_of_getLast? last)
      have last_eq : (whole ++ '.' :: d :: kept).getLast? = (d :: kept).getLast? := by
        rw [List.append_cons, List.getLast?_append_of_ne_nil _ (List.cons_ne_nil d kept)]
      simp only [last_eq, if_neg last_digit]
      rfl

theorem digitsValue_zeros_append (k : ℕ) (digits : List Char) :
    digitsValue (List.replicate k '0' ++ digits) = digitsValue digits := by
  rw [digitsValue, digitsValue, Nat.ofDigitChars_append, Nat.ofDigitChars_replicate_zero, mul_zero]

theorem digitsValue_append_zeros (digits : List Char) (k : ℕ) :
    digitsValue (digits ++ List.replicate k '0') = digitsValue digits * 10 ^ k := by
  rw [digitsValue, digitsValue, Nat.ofDigitChars_append, Nat.ofDigitChars_replicate_zero, mul_comm]

/-- Dropping zeros behind the point does not change the number. -/
theorem digitsValue_dropZeros (whole fraction : List Char) :
    (digitsValue (whole ++ dropZeros fraction) : ℚ) * 10 ^ (-(dropZeros fraction).length : ℤ) =
      digitsValue (whole ++ fraction) * 10 ^ (-fraction.length : ℤ) := by
  obtain ⟨k, fraction_eq⟩ := dropZeros_append_zeros fraction
  generalize dropZeros fraction = kept at *
  rw [fraction_eq, ← List.append_assoc, digitsValue_append_zeros, List.length_append,
    List.length_replicate, Nat.cast_mul, Nat.cast_add, neg_add, zpow_add₀ (by norm_num)]
  simp only [Nat.cast_pow, Nat.cast_ofNat, zpow_neg, zpow_natCast]
  field_simp

theorem lt_length_padded (n decimals : ℕ) : decimals < (padded n decimals).length := by
  rw [padded, List.length_append, List.length_replicate]
  omega

theorem isDigits_padded (n decimals : ℕ) : IsDigits (padded n decimals) := by
  refine ⟨List.length_pos_iff.mp (Nat.zero_lt_of_lt (lt_length_padded n decimals)), ?_⟩
  intro c member
  rcases List.mem_append.mp member with zero | digit
  · rw [List.eq_of_mem_replicate zero]
    rfl
  · exact (isDigits_toDigits n).2 c digit

theorem digitsValue_padded (n decimals : ℕ) : digitsValue (padded n decimals) = n := by
  rw [padded, digitsValue_zeros_append, digitsValue_toDigits]

theorem padded_of_long {n decimals : ℕ} (h : decimals < (Nat.toDigits 10 n).length) :
    padded n decimals = Nat.toDigits 10 n := by
  rw [padded, Nat.sub_eq_zero_of_le h]
  rfl

/-- More than one digit before the point do not begin with zero. -/
theorem length_padded_of_head {n decimals : ℕ} (head : (padded n decimals).head? = some '0') :
    (padded n decimals).length = decimals + 1 := by
  rcases Nat.lt_or_ge (decimals + 1) (Nat.toDigits 10 n).length with long | short
  · rw [padded_of_long (by omega)] at head
    rcases Nat.eq_zero_or_pos n with rfl | pos
    · simp at long
    · exact absurd head (head_toDigits_ne_zero pos)
  · rw [padded, List.length_append, List.length_replicate]
    omega

/-- The parts of the number `n / 10 ^ decimals` with all its decimals. -/
structure Spells (n decimals : ℕ) (whole fraction : List Char) : Prop where
  digits : whole ++ fraction = padded n decimals
  length : fraction.length = decimals

theorem withDecimals_spells (n decimals : ℕ) :
    ∃ whole fraction, withDecimals n decimals = withPoint whole fraction ∧
      Spells n decimals whole fraction := by
  have longer := lt_length_padded n decimals
  refine ⟨_, _, rfl, List.take_append_drop _ _, ?_⟩
  rw [List.length_drop]
  omega

namespace Spells

variable {n decimals : ℕ} {whole fraction : List Char}

theorem whole_length (h : Spells n decimals whole fraction) :
    whole.length + decimals = (padded n decimals).length := by
  rw [← h.digits, List.length_append, h.length]

theorem whole_digits (h : Spells n decimals whole fraction) : IsDigits whole := by
  have longer := lt_length_padded n decimals
  have length_eq := h.whole_length
  refine ⟨List.length_pos_iff.mp (by omega), fun c member => ?_⟩
  apply (isDigits_padded n decimals).2
  rw [← h.digits]
  exact List.mem_append_left _ member

theorem fraction_digits (h : Spells n decimals whole fraction) : ∀ c ∈ fraction, c.isDigit := by
  intro c member
  apply (isDigits_padded n decimals).2
  rw [← h.digits]
  exact List.mem_append_right _ member

theorem head_padded (h : Spells n decimals whole fraction) :
    (padded n decimals).head? = whole.head? := by
  rw [← h.digits, List.head?_append_of_ne_nil _ h.whole_digits.1]

theorem no_needless_zero (h : Spells n decimals whole fraction) (zero : whole.head? = some '0') :
    whole = ['0'] := by
  have length_eq := h.whole_length
  rw [length_padded_of_head (h.head_padded.trans zero)] at length_eq
  obtain ⟨c, rfl⟩ := List.length_eq_one_iff.mp (show whole.length = 1 by omega)
  simpa using zero

/-- As many digits as there are decimals and one more leave one digit before the point. -/
theorem lead (h : Spells n decimals whole fraction) (low : 10 ^ decimals ≤ n)
    (high : n < 10 ^ (decimals + 1)) : ∃ c, whole = [c] ∧ c ≠ '0' := by
  have pos : 0 < n := (Nat.pow_pos (by decide)).trans_le low
  obtain ⟨digits_low, digits_high⟩ := toDigits_bounds pos
  have long := (Nat.pow_lt_pow_iff_right (by decide)).mp (low.trans_lt digits_high)
  have short := (Nat.pow_lt_pow_iff_right (by decide)).mp (digits_low.trans_lt high)
  have length_eq := h.whole_length
  have head_eq := h.head_padded
  rw [padded_of_long long] at length_eq head_eq
  obtain ⟨c, rfl⟩ := List.length_eq_one_iff.mp (show whole.length = 1 by omega)
  refine ⟨c, rfl, ?_⟩
  rintro rfl
  exact head_toDigits_ne_zero pos head_eq

/-- Without the zeros at the end it denotes the same number. -/
theorem denoted (h : Spells n decimals whole fraction) (negative : Bool) {rest : List Char}
    {exponent : ℤ} (stops : NumberStops rest) (exponent_eq : readExponent rest = some exponent) :
    denoted (withSign negative (withPoint whole (dropZeros fraction) ++ rest)) =
      some (signed negative (n * 10 ^ (exponent - decimals))) := by
  have value_eq : (digitsValue (whole ++ dropZeros fraction) : ℚ) *
      10 ^ (-(dropZeros fraction).length : ℤ) = n * 10 ^ (-decimals : ℤ) := by
    rw [digitsValue_dropZeros, h.digits, h.length, digitsValue_padded]
  have kept := isFraction_dropZeros h.fraction_digits
  rw [denoted_of_parts negative h.whole_digits kept.1 stops exponent_eq, applySign_mul,
    sub_eq_neg_add, sub_eq_neg_add, zpow_add₀ (by norm_num), zpow_add₀ (by norm_num), ← mul_assoc,
    value_eq, mul_assoc]

theorem trimmed (h : Spells n decimals whole fraction) :
    trimFraction (withPoint whole fraction) = withPoint whole (dropZeros fraction) :=
  trimFraction_withPoint h.whole_digits.2 h.fraction_digits

end Spells

/-- A number written in full, with its decimals but without the zeros at their end. -/
theorem withDecimals_plain (n decimals : ℕ) (negative : Bool) :
    IsPlain (withSign negative (trimFraction (withDecimals n decimals))) ∧
      denoted (withSign negative (trimFraction (withDecimals n decimals))) =
        some (signed negative (n * 10 ^ (-decimals : ℤ))) := by
  obtain ⟨whole, fraction, text_eq, spells⟩ := withDecimals_spells n decimals
  have kept := isFraction_dropZeros spells.fraction_digits
  have stops : NumberStops [] := by simp [NumberStops, Stops]
  have denoted_eq := spells.denoted negative stops rfl
  rw [List.append_nil, zero_sub] at denoted_eq
  rw [text_eq, spells.trimmed]
  exact ⟨⟨negative, whole, _, rfl, spells.whole_digits, spells.no_needless_zero, kept⟩, denoted_eq⟩

theorem readExponent_exponentText (exponent : ℤ) :
    readExponent (exponentText exponent) = some exponent := by
  have all : allDigits (padded exponent.natAbs 1) = true :=
    (allDigits_iff _).mpr (isDigits_padded exponent.natAbs 1)
  rw [exponentText, readExponent, if_pos (.inl rfl), readSigned]
  rcases lt_or_ge exponent 0 with negative | nonneg
  · rw [if_pos negative]
    simp only [takeSign, all, if_true, digitsValue_padded, applySign, Option.some.injEq]
    omega
  · rw [if_neg (by omega)]
    simp only [takeSign, all, if_true, digitsValue_padded, applySign, Option.some.injEq]
    exact Int.natAbs_of_nonneg nonneg

/-- Six digits, one of them before the point, without the zeros at their end, and an exponent. -/
theorem withDecimals_scientific {n : ℕ} (bounds : 10 ^ 5 ≤ n ∧ n < 10 ^ 6) (exponent : ℤ)
    (negative : Bool) :
    IsScientific (withSign negative (trimFraction (withDecimals n 5) ++ exponentText exponent)) ∧
      denoted (withSign negative (trimFraction (withDecimals n 5) ++ exponentText exponent)) =
        some (signed negative (n * 10 ^ (exponent - 5))) := by
  obtain ⟨whole, fraction, text_eq, spells⟩ := withDecimals_spells n 5
  obtain ⟨lead, rfl, lead_ne⟩ := spells.lead bounds.1 bounds.2
  have lead_digit := spells.whole_digits.2 lead (List.mem_singleton_self lead)
  have kept := isFraction_dropZeros spells.fraction_digits
  have kept_length : (dropZeros fraction).length ≤ 5 :=
    spells.length ▸ (List.rdropWhile_prefix (· = '0') fraction).length_le
  have sign : (if exponent < 0 then '-' else '+') = '-' ∨
      (if exponent < 0 then '-' else '+') = '+' := by
    split
    · exact .inl rfl
    · exact .inr rfl
  have stops : NumberStops (exponentText exponent) := by simp [NumberStops, Stops, exponentText]
  rw [text_eq, spells.trimmed]
  exact ⟨⟨negative, lead, _, _, _, rfl, ⟨lead_digit, lead_ne⟩, ⟨kept, kept_length⟩, sign,
    isDigits_padded _ 1, lt_length_padded _ 1⟩,
    spells.denoted negative stops (readExponent_exponentText exponent)⟩

end FieldScript.Numeric
