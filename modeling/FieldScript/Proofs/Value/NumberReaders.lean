import FieldScript.Proofs.Numeric.Plain
import FieldScript.Proofs.Token.Tiling
import FieldScript.Value.Basic

/-!
# Three readers of numbers

A text is read as a number where arithmetic uses it, where it is a field, and where it stands in a
script. Main statement: on plain numerals the three agree, whatever blanks are around the first two
and however long the numeral is.
-/

namespace FieldScript

open Numeric

theorem Text.isBlank_of_isDigit {c : Char} (h : c.isDigit = true) : isBlank c = false := by
  simp only [Char.isDigit, Bool.and_eq_true, decide_eq_true_eq, ge_iff_le,
    UInt32.le_iff_toNat_le] at h
  have bounds : '0'.val.toNat = 48 ∧ '9'.val.toNat = 57 := by decide
  have toNat_eq : c.toNat = c.val.toNat := rfl
  simp only [isBlank, blankRanges, List.any_cons, List.any_nil, Bool.or_eq_false_iff,
    Bool.and_eq_false_iff, decide_eq_false_iff_not, and_true]
  omega

namespace Value

variable {s : String} {n : Numeral}

theorem numeral?_eq_some_iff : numeral? s = some n ↔ n.WrittenAs (Text.trim s.toList) :=
  readNumeral_eq_some_iff

theorem isNumericText_iff :
    isNumericText s = true ↔ ∃ n : Numeral, n.WrittenAs (Text.trim s.toList) := by
  rw [isNumericText, Option.isSome_iff_exists]
  exact exists_congr fun n => numeral?_eq_some_iff

theorem toNumber_of_writtenAs (h : n.WrittenAs (Text.trim s.toList)) :
    (text s).toNumber = some n.value := by
  rw [toNumber_text, numeral?_eq_some_iff.mpr h, Option.map_some]

theorem no_point_iff (h : n.WrittenAs (Text.trim s.toList)) :
    '.' ∉ s.toList ↔ n.fraction = none := by
  rw [← h.no_point_iff, Text.trim, Text.mem_trimBoth_iff (by decide)]

/-- Reading a field gives the number of its text at once, except that an integer too wide for 64
bits stays text. -/
theorem ofField_of_writtenAs (h : n.WrittenAs (Text.trim s.toList)) :
    ofField s = ofNumber n.value ∨ ofField s = text s := by
  by_cases no_point : n.fraction = none
  · have absent : s.toList.contains '.' = false := by simpa using (no_point_iff h).mpr no_point
    rw [ofField, absent, h.readInteger no_point]
    cases fits : Number.fit n.signedWhole with
    | none => exact .inr rfl
    | some w =>
      rw [Numeral.value_of_fit no_point fits]
      exact .inl rfl
  · have present : s.toList.contains '.' = true := by simpa [no_point] using no_point_iff h
    rw [ofField, present, h.readWide, Numeral.value_of_pointed no_point]
    exact .inl rfl

theorem toNumber_ofField (h : n.WrittenAs (Text.trim s.toList)) :
    (ofField s).toNumber = (text s).toNumber := by
  rcases ofField_of_writtenAs h with number | same
  · rw [number, toNumber_ofNumber, toNumber_of_writtenAs h]
  · rw [same]

end Value

section Unsigned

variable {whole : List Char} {fraction : Option (List Char)} (digits : IsDigits whole)
  (fraction_digits : ∀ digits ∈ fraction, ∀ c ∈ digits, c.isDigit)

include digits fraction_digits

theorem trim_unsigned : Text.trim (whole ++ pointed fraction) = whole ++ pointed fraction := by
  apply Text.trimBoth_of_none
  intro c member
  rcases List.mem_append.mp member with inside | inside
  · exact Text.isBlank_of_isDigit (digits.2 c inside)
  · cases fraction with
    | none => simp [pointed] at inside
    | some more =>
      rcases List.mem_cons.mp inside with rfl | inside
      · decide
      · exact Text.isBlank_of_isDigit (fraction_digits more rfl c inside)

theorem tokenize_unsigned {s : String} (text_eq : s.toList = whole ++ pointed fraction) :
    tokenize s =
      .ok [⟨.ofNumber (Numeral.value ⟨false, whole, fraction⟩), .start⟩,
        ⟨.eof, .behind s.toList⟩] := by
  have taken := (writtenAs_unsigned digits fraction_digits).takeDigits
  have isLexeme :
      Lexer.Lexeme (.ofNumber (Numeral.value ⟨false, whole, fraction⟩)) s.toList [] := by
    rw [text_eq]
    exact Lexer.lexeme_of_scan (Lexer.scan_of_takeDigits digits taken)
  have tiling : Lexer.Tiling [] ([] ++ (s.toList ++ []))
      [⟨.ofNumber (Numeral.value ⟨false, whole, fraction⟩), .behind ([] ++ [])⟩,
        ⟨.eof, .behind ([] ++ [] ++ s.toList ++ [])⟩] := .token .nil isLexeme (.finish .nil)
  have start_eq : Location.behind [] = .start := rfl
  rw [tokenize_iff_tiling]
  simpa [start_eq] using tiling

end Unsigned

theorem Number.exists_fit_iff {n : Int} :
    (∃ w, fit n = some w) ↔ -bound ≤ n ∧ n < bound := by
  simp [fit]

/-- A numeral that is read as an integer from a text around it. -/
structure IsInteger (s : String) (n : Numeral) : Prop where
  no_point : '.' ∉ s.toList
  bound_le : -Number.bound ≤ n.signedWhole
  lt_bound : n.signedWhole < Number.bound

/-- The number of a text that is a numeral between blanks. An integer is the numeral's value, which
the reader of integers finds too; otherwise it is the float that the reader of wide numerals finds.
The text has the same number as a field. -/
structure HasNumberOf (s : String) (n : Numeral) : Prop where
  integer_iff : (∃ w, (Value.text s).toNumber = some (.int w)) ↔ IsInteger s n
  integer : ∀ w, (Value.text s).toNumber = some (.int w) →
    w.toInt = n.signedWhole ∧ readInteger (Text.trim s.toList) = some w
  float : ¬IsInteger s n → ∃ x, (Value.text s).toNumber = some (.float x) ∧
    readWide (Text.trim s.toList) = some x
  field : (Value.ofField s).toNumber = (Value.text s).toNumber

/-- The readers agree on a text, and with that of scripts where it has neither a sign nor blanks. -/
structure ReadersAgree (s : String) : Prop where
  isSome : (Value.text s).toNumber.isSome = Value.isNumericText s
  numeric_iff : Value.isNumericText s = true ↔ ∃ n : Numeral, n.WrittenAs (Text.trim s.toList)
  numeral : ∀ n : Numeral, n.WrittenAs (Text.trim s.toList) → HasNumberOf s n
  token : ∀ (whole : List Char) (fraction : Option (List Char)), IsDigits whole →
    (∀ digits ∈ fraction, ∀ c ∈ digits, c.isDigit) → s.toList = whole ++ pointed fraction →
    ∃ v, (Value.text s).toNumber = some v ∧
      tokenize s = .ok [⟨.ofNumber v, .start⟩, ⟨.eof, .behind s.toList⟩]

theorem isInteger_iff {s : String} {n : Numeral} (written : n.WrittenAs (Text.trim s.toList)) :
    IsInteger s n ↔ n.fraction = none ∧ ∃ w, Number.fit n.signedWhole = some w := by
  rw [← Value.no_point_iff written, Number.exists_fit_iff]
  constructor
  · rintro ⟨no_point, bound_le, lt_bound⟩
    exact ⟨no_point, bound_le, lt_bound⟩
  · rintro ⟨no_point, bound_le, lt_bound⟩
    exact ⟨no_point, bound_le, lt_bound⟩

theorem toNumber_eq_int_iff {s : String} {n : Numeral} {w : Int64}
    (written : n.WrittenAs (Text.trim s.toList)) :
    (Value.text s).toNumber = some (.int w) ↔
      n.fraction = none ∧ Number.fit n.signedWhole = some w := by
  rw [Value.toNumber_of_writtenAs written, Option.some.injEq, Numeral.value_eq_int_iff]

theorem hasNumberOf {s : String} {n : Numeral} (written : n.WrittenAs (Text.trim s.toList)) :
    HasNumberOf s n := by
  constructor
  · simp only [toNumber_eq_int_iff written, isInteger_iff written, exists_and_left]
  · intro w is_int
    obtain ⟨no_point, fit_eq⟩ := (toNumber_eq_int_iff written).mp is_int
    refine ⟨Number.toInt_of_fit fit_eq, ?_⟩
    rw [written.readInteger no_point, fit_eq]
  · intro no_integer
    refine ⟨n.float, ?_, written.readWide⟩
    rw [Value.toNumber_of_writtenAs written]
    by_cases no_point : n.fraction = none
    · have wide : Number.fit n.signedWhole = none := by
        apply Option.eq_none_iff_forall_ne_some.mpr
        intro w fit_eq
        exact no_integer ((isInteger_iff written).mpr ⟨no_point, w, fit_eq⟩)
      rw [Numeral.value_of_unfit wide]
    · rw [Numeral.value_of_pointed no_point]
  · exact Value.toNumber_ofField written

/-- On every text the three readers of numbers agree. -/
theorem number_readers_agree (s : String) : ReadersAgree s := by
  constructor
  · exact Value.isSome_toNumber_text s
  · exact Value.isNumericText_iff
  · exact fun n => hasNumberOf
  · intro whole fraction digits fraction_digits text_eq
    have written : Numeral.WrittenAs ⟨false, whole, fraction⟩ (Text.trim s.toList) := by
      rw [text_eq, trim_unsigned digits fraction_digits]
      exact writtenAs_unsigned digits fraction_digits
    exact ⟨_, Value.toNumber_of_writtenAs written,
      tokenize_unsigned digits fraction_digits text_eq⟩

/-- The first text is one below the least integer and stays text as a field; the digits of the
second one are a float in all three places. -/
theorem number_readers_agree_wide :
    (Value.ofField " -9223372036854775809\t" = .text " -9223372036854775809\t" ∧
      (Value.ofField " -9223372036854775809\t").toNumber =
        (Value.text " -9223372036854775809\t").toNumber ∧
      ∃ x, (Value.text " -9223372036854775809\t").toNumber = some (.float x) ∧
        readWide "-9223372036854775809".toList = some x) ∧
    ∃ v, (Value.text "007.50").toNumber = some v ∧ v = .float 7.5 ∧
      tokenize "007.50" = .ok [⟨.ofNumber v, .start⟩, ⟨.eof, .behind "007.50".toList⟩] := by
  have trimmed : Text.trim " -9223372036854775809\t".toList = "-9223372036854775809".toList := by
    decide +kernel
  have written : Numeral.WrittenAs ⟨true, "9223372036854775809".toList, none⟩
      (Text.trim " -9223372036854775809\t".toList) :=
    readNumeral_eq_some_iff.mp (by decide +kernel)
  have too_low : ¬-Number.bound ≤
      Numeral.signedWhole ⟨true, "9223372036854775809".toList, none⟩ := by decide +kernel
  have number := (number_readers_agree " -9223372036854775809\t").numeral _ written
  refine ⟨⟨by decide +kernel, number.field, ?_⟩, ?_⟩
  · rw [← trimmed]
    exact number.float fun integer => too_low integer.bound_le
  · have digits : IsDigits "007".toList := by simp [IsDigits]
    obtain ⟨v, same, tokens⟩ := (number_readers_agree "007.50").token "007".toList
      (some "50".toList) digits (by simp) (by decide +kernel)
    have value_eq : (Value.text "007.50").toNumber = some (.float 7.5) := by decide +kernel
    exact ⟨v, same, Option.some.inj (same.symm.trans value_eq), tokens⟩

end FieldScript
