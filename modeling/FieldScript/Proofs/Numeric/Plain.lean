import FieldScript.Proofs.Numeric.Digits

/-!
# Plain numerals

A plain numeral is an optional sign, at least one digit, and perhaps a point with further digits. It
is read as its parts, and the readers of integers and of wide numerals, which take other texts too,
find the same number in it.
-/

namespace FieldScript.Numeric

def signsOf : Bool → List (List Char)
  | true => [['-']]
  | false => [[], ['+']]

namespace Numeral

/-- A text that spells out the parts of a numeral. -/
structure WrittenAs (n : Numeral) (text : List Char) : Prop where
  whole : IsDigits n.whole
  fraction : ∀ digits ∈ n.fraction, ∀ c ∈ digits, c.isDigit
  text_eq : ∃ sign ∈ signsOf n.negative, text = sign ++ (n.whole ++ pointed n.fraction)

def signedWhole (n : Numeral) : Int := applySign n.negative (digitsValue n.whole)

def float (n : Numeral) : Float :=
  ofDecimal n.negative (digitsValue (n.whole ++ n.fraction.getD [])) (-(n.fraction.getD []).length)

end Numeral

theorem exists_sign (text : List Char) :
    ∃ sign ∈ signsOf (takeSign text).1, text = sign ++ (takeSign text).2 := by
  unfold takeSign
  split
  · exact ⟨['-'], List.mem_singleton.mpr rfl, rfl⟩
  · exact ⟨['+'], List.mem_cons_of_mem _ List.mem_cons_self, rfl⟩
  · exact ⟨[], List.mem_cons_self, rfl⟩

theorem takeSign_of_digit {text : List Char} {c : Char} (digit : c.isDigit = true)
    (head : text.head? = some c) : takeSign text = (false, text) := by
  unfold takeSign
  split
  · simp at head
    simp [← head] at digit
  · simp at head
    simp [← head] at digit
  · rfl

theorem takeSign_append {negative : Bool} {sign body : List Char} {c : Char}
    (is_sign : sign ∈ signsOf negative) (digit : c.isDigit = true) (head : body.head? = some c) :
    takeSign (sign ++ body) = (negative, body) := by
  cases negative with
  | true =>
    rw [List.mem_singleton.mp is_sign]
    rfl
  | false =>
    rcases List.mem_cons.mp is_sign with rfl | plus
    · exact takeSign_of_digit digit head
    · rw [List.mem_singleton.mp plus]
      rfl

theorem IsDigits.head {digits : List Char} (h : IsDigits digits) (rest : List Char) :
    ∃ c, c.isDigit = true ∧ (digits ++ rest).head? = some c := by
  cases digits with
  | nil => exact absurd rfl h.1
  | cons c more => exact ⟨c, h.2 c List.mem_cons_self, rfl⟩

namespace Numeral.WrittenAs

variable {n : Numeral} {text : List Char}

theorem takeSign (h : n.WrittenAs text) :
    takeSign text = (n.negative, n.whole ++ pointed n.fraction) := by
  obtain ⟨sign, is_sign, rfl⟩ := h.text_eq
  obtain ⟨c, digit, head⟩ := h.whole.head (pointed n.fraction)
  exact takeSign_append is_sign digit head

theorem takeDigits (h : n.WrittenAs text) :
    takeDigits (n.whole ++ pointed n.fraction) = (n.whole, n.fraction, []) := by
  cases fraction_eq : n.fraction with
  | none => exact takeDigits_of_numberStops h.whole.2 (by simp [NumberStops, Stops, pointed])
  | some fraction =>
    have taken := takeDigits_of_point h.whole.2 (h.fraction fraction fraction_eq)
      (show Stops Char.isDigit [] by simp [Stops])
    rwa [List.append_nil] at taken

theorem readNumeral (h : n.WrittenAs text) : readNumeral text = some n := by
  have some_digit : n.whole.isEmpty = false := by simpa using h.whole.1
  simp only [Numeric.readNumeral, h.takeSign, h.takeDigits, some_digit]
  rfl

/-- A wide numeral without an exponent is read as the float nearest to it. -/
theorem readWide (h : n.WrittenAs text) : readWide text = some n.float := by
  have some_digit : n.whole.isEmpty = false := by simpa using h.whole.1
  simp only [Numeric.readWide, h.takeSign, h.takeDigits, some_digit, Bool.false_and]
  simp [readExponent, float]

theorem readInteger (h : n.WrittenAs text) (no_point : n.fraction = none) :
    readInteger text = Number.fit n.signedWhole := by
  have all : allDigits n.whole = true := (allDigits_iff n.whole).mpr h.whole
  simp only [Numeric.readInteger, h.takeSign, no_point, pointed, List.append_nil, all, if_true]
  rfl

theorem no_point_iff (h : n.WrittenAs text) : '.' ∉ text ↔ n.fraction = none := by
  have not_digit : ∀ digits : List Char, (∀ c ∈ digits, c.isDigit) → '.' ∉ digits := by
    intro digits all point
    simpa using all '.' point
  obtain ⟨sign, is_sign, rfl⟩ := h.text_eq
  have not_sign : '.' ∉ sign := by
    cases negative_eq : n.negative <;> rw [negative_eq] at is_sign <;> simp [signsOf] at is_sign
    · rcases is_sign with rfl | rfl <;> decide
    · rw [is_sign]
      decide
  have not_whole := not_digit n.whole h.whole.2
  cases n.fraction <;> simp [pointed, not_sign, not_whole]

end Numeral.WrittenAs

theorem writtenAs_unsigned {whole : List Char} {fraction : Option (List Char)}
    (digits : IsDigits whole) (fraction_digits : ∀ digits ∈ fraction, ∀ c ∈ digits, c.isDigit) :
    Numeral.WrittenAs ⟨false, whole, fraction⟩ (whole ++ pointed fraction) :=
  ⟨digits, fraction_digits, [], List.mem_cons_self, rfl⟩

theorem writtenAs_of_readNumeral {n : Numeral} {text : List Char} (h : readNumeral text = some n) :
    n.WrittenAs text := by
  obtain ⟨sign, is_sign, text_eq⟩ := exists_sign text
  have parts_eq := takeDigits_append (takeSign text).2
  have taken_cases := takeDigits_cases (takeSign text).2
  simp only [readNumeral] at h
  split at h
  · next whole fraction taken =>
    split at h
    · simp at h
    · next some_digit =>
      rw [← Option.some.inj h]
      simp only [taken, List.append_nil] at parts_eq taken_cases
      refine ⟨⟨by simpa using some_digit, ?_⟩, ?_, sign, is_sign, by rw [parts_eq, ← text_eq]⟩
      · rcases taken_cases with ⟨rest, pair_eq, -⟩ | ⟨_, rest, pair_eq, -⟩
        all_goals
          rw [Prod.mk.injEq] at pair_eq
          change ∀ c ∈ whole, c.isDigit
          rw [pair_eq.1]
          exact isDigit_of_mem_takeWhile
      · rcases taken_cases with ⟨rest, pair_eq, -⟩ | ⟨digits, rest, pair_eq, all, -⟩
        · simp only [Prod.mk.injEq] at pair_eq
          simp [pair_eq.2.1]
        · simp only [Prod.mk.injEq] at pair_eq
          change ∀ digits ∈ fraction, _
          rw [pair_eq.2.1]
          simpa using all
  · simp at h

/-- A text is read as a numeral exactly when it spells out the parts of one. -/
theorem readNumeral_eq_some_iff {n : Numeral} {text : List Char} :
    readNumeral text = some n ↔ n.WrittenAs text :=
  ⟨writtenAs_of_readNumeral, fun h => h.readNumeral⟩

namespace Numeral

theorem value_of_pointed {n : Numeral} (point : n.fraction ≠ none) : n.value = .float n.float := by
  cases fraction_eq : n.fraction with
  | none => exact absurd fraction_eq point
  | some fraction => simp [value, float, fraction_eq]

theorem value_of_unfit {n : Numeral} (wide : Number.fit n.signedWhole = none) :
    n.value = .float n.float := by
  by_cases no_point : n.fraction = none
  · rw [value_of_wide no_point wide]
    simp [float, no_point]
  · exact value_of_pointed no_point

theorem value_eq_int_iff {n : Numeral} {w : Int64} :
    n.value = .int w ↔ n.fraction = none ∧ Number.fit n.signedWhole = some w := by
  constructor
  · intro h
    by_cases no_point : n.fraction = none
    · refine ⟨no_point, ?_⟩
      cases fits : Number.fit n.signedWhole with
      | none => simp [value_of_unfit fits] at h
      | some w' =>
        rw [value_of_fit no_point fits, Number.int.injEq] at h
        rw [h]
    · simp [value_of_pointed no_point] at h
  · rintro ⟨no_point, fits⟩
    exact value_of_fit no_point fits

end Numeral

end FieldScript.Numeric
