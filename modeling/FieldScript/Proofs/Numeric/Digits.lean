import Mathlib.Algebra.Group.Nat.Defs
import FieldScript.Numeric.Numeral
import FieldScript.Proofs.Text.Runs

/-!
# Runs of digits

The digits of a number are taken as far as they go, and so is a point with the digits behind it.
-/

namespace FieldScript.Numeric

def IsDigits (text : List Char) : Prop := text ≠ [] ∧ ∀ c ∈ text, c.isDigit

theorem allDigits_iff (text : List Char) : allDigits text = true ↔ IsDigits text := by
  simp [allDigits, IsDigits]

/-- The text does not go on with a digit or a point. -/
def NumberStops (rest : List Char) : Prop := Stops (fun c => c.isDigit || c = '.') rest

theorem NumberStops.digits {rest : List Char} (h : NumberStops rest) : Stops Char.isDigit rest := by
  intro c head
  have stops := h c head
  rw [Bool.or_eq_false_iff] at stops
  exact stops.1

theorem takeDigits_of_numberStops {digits rest : List Char} (all : ∀ c ∈ digits, c.isDigit)
    (stops : NumberStops rest) : takeDigits (digits ++ rest) = (digits, none, rest) := by
  simp only [takeDigits, takeWhile_append_stops all stops.digits,
    dropWhile_append_stops all stops.digits]
  split
  · next more => simp [NumberStops, Stops] at stops
  · rfl

theorem takeDigits_of_point {whole fraction rest : List Char} (all : ∀ c ∈ whole, c.isDigit)
    (digits : ∀ c ∈ fraction, c.isDigit) (stops : Stops Char.isDigit rest) :
    takeDigits (whole ++ '.' :: (fraction ++ rest)) = (whole, some fraction, rest) := by
  have at_point : Stops Char.isDigit ('.' :: (fraction ++ rest)) := by simp [Stops]
  simp only [takeDigits, takeWhile_append_stops all at_point,
    dropWhile_append_stops all at_point, takeWhile_append_stops digits stops,
    dropWhile_append_stops digits stops]

theorem isDigit_of_mem_takeWhile {text : List Char} :
    ∀ c ∈ text.takeWhile Char.isDigit, c.isDigit :=
  List.all_eq_true.mp List.all_takeWhile

/-- Without a point, the digits end where no number goes on; with a point, so do the digits behind
it. -/
theorem takeDigits_cases (text : List Char) :
    (∃ rest, takeDigits text = (text.takeWhile Char.isDigit, none, rest) ∧ NumberStops rest) ∨
      ∃ fraction rest, takeDigits text = (text.takeWhile Char.isDigit, some fraction, rest) ∧
        (∀ c ∈ fraction, c.isDigit) ∧ Stops Char.isDigit rest := by
  have stops := stops_dropWhile Char.isDigit text
  simp only [takeDigits]
  split
  · exact .inr ⟨_, _, rfl, isDigit_of_mem_takeWhile, stops_dropWhile _ _⟩
  · next no_point =>
    refine .inl ⟨_, rfl, ?_⟩
    intro c head
    rw [Bool.or_eq_false_iff]
    refine ⟨stops c head, ?_⟩
    cases rest_eq : text.dropWhile Char.isDigit with
    | nil => simp [rest_eq] at head
    | cons d more =>
      obtain rfl : d = c := by simpa [rest_eq] using head
      have not_point : d ≠ '.' := by
        rintro rfl
        exact no_point more rest_eq
      simpa using not_point

theorem isDigits_toDigits (n : Nat) : IsDigits (Nat.toDigits 10 n) :=
  ⟨Nat.toDigits_ne_nil, fun _ member => Nat.isDigit_of_mem_toDigits (by decide) (by decide) member⟩

theorem digitsValue_toDigits (n : Nat) : digitsValue (Nat.toDigits 10 n) = n :=
  Nat.ofDigitChars_toDigits (by decide) (by decide)

theorem length_toDigits_pos (n : Nat) : 0 < (Nat.toDigits 10 n).length :=
  List.length_pos_iff.mpr Nat.toDigits_ne_nil

theorem toDigits_bounds {n : Nat} (pos : 0 < n) :
    10 ^ ((Nat.toDigits 10 n).length - 1) ≤ n ∧ n < 10 ^ (Nat.toDigits 10 n).length := by
  have length_pos := length_toDigits_pos n
  constructor
  · rcases Nat.eq_zero_or_pos ((Nat.toDigits 10 n).length - 1) with zero | more
    · rw [zero]
      exact pos
    · rw [← Nat.not_lt, ← Nat.length_toDigits_le_iff (by decide) more]
      omega
  · exact (Nat.length_toDigits_le_iff (by decide) length_pos).mp (Nat.le_refl _)

theorem head_toDigits_ne_zero {n : Nat} (pos : 0 < n) : (Nat.toDigits 10 n).head? ≠ some '0' := by
  induction n using Nat.strongRecOn with
  | _ n ih =>
    rcases Nat.lt_or_ge n 10 with small | large
    · rw [Nat.toDigits_of_lt_base small]
      simpa [Nat.digitChar_eq_zero] using Nat.ne_of_gt pos
    · have shorter := ih (n / 10) (by omega) (by omega)
      rw [List.head?_eq_some_head Nat.toDigits_ne_nil] at shorter
      rw [Nat.toDigits_of_base_le (by decide) large, List.head?_append,
        List.head?_eq_some_head Nat.toDigits_ne_nil]
      exact shorter

theorem Numeral.value_of_fit {n : Numeral} {w : Int64} (no_point : n.fraction = none)
    (h : Number.fit (applySign n.negative (digitsValue n.whole)) = some w) : n.value = .int w := by
  rw [Numeral.value, h, no_point]

theorem Numeral.value_of_wide {n : Numeral} (no_point : n.fraction = none)
    (h : Number.fit (applySign n.negative (digitsValue n.whole)) = none) :
    n.value = .float (ofDecimal n.negative (digitsValue n.whole) 0) := by
  rw [Numeral.value, h, no_point]

theorem value_of_toInt {digits : List Char} {w : Int64} (h : w.toInt = digitsValue digits) :
    Numeral.value ⟨false, digits, none⟩ = .int w := by
  apply Numeral.value_of_fit rfl
  change Number.fit (digitsValue digits) = some w
  rw [← h, Number.fit_toInt]

theorem value_of_too_wide {digits : List Char} (h : 2 ^ 63 ≤ digitsValue digits) :
    Numeral.value ⟨false, digits, none⟩ = .float (ofDecimal false (digitsValue digits) 0) := by
  apply Numeral.value_of_wide rfl
  change Number.fit (digitsValue digits) = none
  rw [Number.fit_eq_none_iff, Number.bound]
  omega

/-- Digits without a point are an integer or too wide for one. -/
theorem toInt_or_wide (digits : List Char) :
    (∃ n : Int64, n.toInt = digitsValue digits) ∨ 2 ^ 63 ≤ digitsValue digits := by
  cases fits : Number.fit (digitsValue digits) with
  | some n => exact .inl ⟨n, Number.toInt_of_fit fits⟩
  | none =>
    rw [Number.fit_eq_none_iff, Number.bound] at fits
    right
    omega

end FieldScript.Numeric
