import FieldScript.Proofs.Numeric.Digits
import FieldScript.Token.Lexer

/-!
# Lexemes

A lexeme is the text of one token where it could not have been longer. Reading a text finds a token
at its front exactly when a lexeme of the token stands there, so the token and its lexeme are
determined by the text.
-/

namespace FieldScript

namespace Symbol

theorem ofWord?_eq_none_iff {word : String} :
    ofWord? word = none ↔ ∀ s ∈ reserved, s.lexeme ≠ word := by
  simp [ofWord?]

theorem ofOperator?_eq_none_iff {spelling : List Char} :
    ofOperator? spelling = none ↔ ∀ s ∈ operators, s.lexeme.toList ≠ spelling := by
  simp [ofOperator?]

theorem ofOperator?_eq_some_iff {spelling : List Char} {s : Symbol} :
    ofOperator? spelling = some s ↔ s ∈ operators ∧ s.lexeme.toList = spelling := by
  constructor
  · intro h
    exact ⟨List.mem_of_find?_eq_some h, lexeme_of_ofOperator? h⟩
  · rintro ⟨member, rfl⟩
    exact ofOperator?_lexeme member

end Symbol

namespace Lexer

open Numeric

/-- `Quoted quote body content`: `body` between two quotes is the literal of `content`. -/
inductive Quoted (quote : Char) : List Char → List Char → Prop where
  | nil : Quoted quote [] []
  | plain {c : Char} {body content : List Char} : c ≠ quote → c ≠ '\n' → c ≠ '\\' →
      Quoted quote body content → Quoted quote (c :: body) (c :: content)
  | escaped {c : Char} {body content : List Char} : c ≠ '\n' → Quoted quote body content →
      Quoted quote ('\\' :: c :: body) (unescape c :: content)

theorem takeText_of_quoted {quote : Char} {body content : List Char} (h : Quoted quote body content)
    (quote_ne : quote ≠ '\\') (rest : List Char) :
    takeText quote (body ++ quote :: rest) = (some content, body ++ [quote], rest) := by
  induction h with
  | nil => rw [List.nil_append, takeText.eq_def]; simp
  | plain not_quote not_newline not_backslash _ ih =>
    rw [List.cons_append, takeText.eq_def]
    simp [not_quote, not_newline, not_backslash, ih]
  | escaped not_newline _ ih =>
    rw [List.cons_append, List.cons_append, takeText.eq_def]
    simp [Ne.symm quote_ne, not_newline, ih]

theorem quoted_of_takeText {quote : Char} {text content passed rest : List Char}
    (h : takeText quote text = (some content, passed, rest)) :
    ∃ body, passed = body ++ [quote] ∧ Quoted quote body content := by
  fun_induction takeText quote text generalizing content passed with
  | case1 => simp at h
  | case2 text =>
    simp only [Prod.mk.injEq, Option.some.injEq] at h
    obtain ⟨rfl, rfl, rfl⟩ := h
    exact ⟨[], rfl, .nil⟩
  | case3 => simp at h
  | case4 => simp at h
  | case5 => simp at h
  | case6 d _ not_newline inner innerPassed after inner_eq _ _ ih =>
    simp only [Prod.mk.injEq, Option.map_eq_some_iff] at h
    obtain ⟨⟨content, rfl, rfl⟩, rfl, rfl⟩ := h
    obtain ⟨body, rfl, quoted⟩ := ih inner_eq
    exact ⟨'\\' :: d :: body, rfl, .escaped not_newline quoted⟩
  | case7 c _ not_quote not_newline not_backslash inner innerPassed after inner_eq ih =>
    simp only [Prod.mk.injEq, Option.map_eq_some_iff] at h
    obtain ⟨⟨content, rfl, rfl⟩, rfl, rfl⟩ := h
    obtain ⟨body, rfl, quoted⟩ := ih inner_eq
    exact ⟨c :: body, rfl, .plain not_quote not_newline not_backslash quoted⟩

/-- No operator is the one of `s` with one more character of what follows. -/
def NoLonger (s : Symbol) (rest : List Char) : Prop :=
  ∀ d ∈ rest.head?, ∀ longer ∈ Symbol.operators, longer.lexeme.toList ≠ s.lexeme.toList ++ [d]

/-- `Lexeme kind text rest`: `text` before `rest` is a longest text of a token of this kind. -/
inductive Lexeme : TokenKind → List Char → List Char → Prop where
  | reserved {s : Symbol} {rest : List Char} : s ∈ Symbol.reserved → Stops isWordChar rest →
      Lexeme (.symbol s) s.lexeme.toList rest
  | name {c : Char} {word rest : List Char} : isWordStart c → (∀ d ∈ word, isWordChar d) →
      (∀ s ∈ Symbol.reserved, s.lexeme ≠ String.ofList (c :: word)) → Stops isWordChar rest →
      Lexeme (.name (String.ofList (c :: word))) (c :: word) rest
  | operator {s : Symbol} {rest : List Char} : s ∈ Symbol.operators → NoLonger s rest →
      Lexeme (.symbol s) s.lexeme.toList rest
  | integer {digits rest : List Char} {n : Int64} : IsDigits digits →
      n.toInt = digitsValue digits → NumberStops rest → Lexeme (.integer n) digits rest
  | wide {digits rest : List Char} : IsDigits digits → 2 ^ 63 ≤ digitsValue digits →
      NumberStops rest → Lexeme (.float (ofDecimal false (digitsValue digits) 0)) digits rest
  | pointed {whole fraction rest : List Char} : IsDigits whole → (∀ c ∈ fraction, c.isDigit) →
      Stops Char.isDigit rest →
      Lexeme (.float (ofDecimal false (digitsValue (whole ++ fraction)) (-fraction.length)))
        (whole ++ '.' :: fraction) rest
  | text {quote : Char} {body content rest : List Char} : quote = '"' ∨ quote = '\'' →
      Quoted quote body content →
      Lexeme (.text (String.ofList content)) (quote :: body ++ [quote]) rest

theorem not_quote_of_isWordStart {c : Char} (h : isWordStart c = true) : ¬(c = '"' ∨ c = '\'') := by
  rintro (rfl | rfl) <;> simp [isWordStart] at h

theorem not_digit_of_isWordStart {c : Char} (h : isWordStart c = true) : c.isDigit = false := by
  by_cases letter : c.isAlpha = true
  · have ranges : (decide (c.val ≥ 'A'.val ∧ c.val ≤ 'Z'.val) ||
        c.val ≥ 'a'.val && c.val ≤ 'z'.val) = true := letter
    simp only [Bool.or_eq_true, Bool.and_eq_true, decide_eq_true_eq, ge_iff_le,
      UInt32.le_iff_toNat_le] at ranges
    have above : 'A'.val.toNat = 65 ∧ 'a'.val.toNat = 97 ∧ '9'.val.toNat = 57 := by decide
    simp only [Char.isDigit, Bool.and_eq_false_iff, decide_eq_false_iff_not,
      UInt32.le_iff_toNat_le]
    omega
  · obtain rfl : c = '_' := by simpa [isWordStart, letter] using h
    decide

theorem not_quote_of_isDigit {c : Char} (h : c.isDigit = true) : ¬(c = '"' ∨ c = '\'') := by
  rintro (rfl | rfl) <;> simp at h

/-- A reserved word begins as every word does. -/
theorem exists_lexeme_of_reserved {s : Symbol} (h : s ∈ Symbol.reserved) :
    ∃ c word, s.lexeme.toList = c :: word ∧ isWordStart c ∧ ∀ d ∈ word, isWordChar d := by
  have all : ∀ s ∈ Symbol.reserved, s.lexeme.toList.head?.any isWordStart ∧
      s.lexeme.toList.tail.all isWordChar := by decide +kernel
  obtain ⟨starts, goes_on⟩ := all s h
  cases lexeme_eq : s.lexeme.toList with
  | nil => simp [lexeme_eq] at starts
  | cons c word =>
    rw [lexeme_eq] at starts goes_on
    exact ⟨c, word, rfl, starts, by simpa using goes_on⟩

theorem length_lexeme_of_operator {s : Symbol} (h : s ∈ Symbol.operators) :
    s.lexeme.toList.length = 1 ∨ s.lexeme.toList.length = 2 := by
  revert s
  decide +kernel

/-- No operator begins like a token of another kind. -/
theorem head_lexeme_of_operator {s : Symbol} (h : s ∈ Symbol.operators) {c : Char}
    {more : List Char} (lexeme_eq : s.lexeme.toList = c :: more) :
    ¬(c = '"' ∨ c = '\'') ∧ c.isDigit = false ∧ isWordStart c = false := by
  have all : ∀ s ∈ Symbol.operators, s.lexeme.toList.head?.all fun c =>
      ¬(c = '"' ∨ c = '\'') ∧ c.isDigit = false ∧ isWordStart c = false := by decide +kernel
  have holds := all s h
  rw [lexeme_eq] at holds
  simpa using holds

/-- The first character of a text decides what is read there. -/
theorem scan_word {c : Char} (start : isWordStart c = true) (rest : List Char) :
    scan (c :: rest) = .token (.ofWord (String.ofList ((c :: rest).takeWhile isWordChar)))
      ((c :: rest).takeWhile isWordChar) ((c :: rest).dropWhile isWordChar) := by
  rw [scan, if_neg (not_quote_of_isWordStart start), not_digit_of_isWordStart start,
    if_neg (by decide), if_pos start]

theorem scan_number {c : Char} (digit : c.isDigit = true) (rest : List Char) :
    scan (c :: rest) =
      .token (.ofNumber (Numeral.value ⟨false, (takeDigits (c :: rest)).1,
          (takeDigits (c :: rest)).2.1⟩))
        ((takeDigits (c :: rest)).1 ++ Numeric.pointed (takeDigits (c :: rest)).2.1)
        (takeDigits (c :: rest)).2.2 := by
  rw [scan, if_neg (not_quote_of_isDigit digit), if_pos digit]

theorem scan_operator {c : Char} (not_quote : ¬(c = '"' ∨ c = '\''))
    (not_digit : c.isDigit = false) (not_word : isWordStart c = false) (rest : List Char) :
    scan (c :: rest) = scanSymbol c rest := by
  rw [scan, if_neg not_quote, not_digit, if_neg (by decide), not_word, if_neg (by decide)]

theorem scanSingle_of_operator {s : Symbol} {c : Char} (h : s ∈ Symbol.operators)
    (lexeme_eq : s.lexeme.toList = [c]) (rest : List Char) :
    scanSingle c rest = .token (.symbol s) [c] rest := by
  rw [scanSingle, ← lexeme_eq, Symbol.ofOperator?_lexeme h]

theorem scanSymbol_of_operator {s : Symbol} {c : Char} {more rest : List Char}
    (h : s ∈ Symbol.operators) (longest : NoLonger s rest)
    (lexeme_eq : s.lexeme.toList = c :: more) :
    scanSymbol c (more ++ rest) = .token (.symbol s) (c :: more) rest := by
  match more with
  | [] =>
    cases rest with
    | nil => exact scanSingle_of_operator h lexeme_eq []
    | cons d rest =>
      have none_longer : Symbol.ofOperator? [c, d] = none := by
        rw [Symbol.ofOperator?_eq_none_iff]
        intro longer member
        have not_longer := longest d rfl longer member
        rwa [lexeme_eq] at not_longer
      rw [List.nil_append, scanSymbol, none_longer]
      exact scanSingle_of_operator h lexeme_eq (d :: rest)
  | [d] =>
    rw [List.cons_append, List.nil_append, scanSymbol, ← lexeme_eq, Symbol.ofOperator?_lexeme h]
  | _ :: _ :: _ =>
    have short := length_lexeme_of_operator h
    rw [lexeme_eq] at short
    simp at short

theorem lexeme_of_scanSingle {c : Char} {text lexeme rest : List Char} {kind : TokenKind}
    (h : scanSingle c text = .token kind lexeme rest)
    (longest : ∀ d ∈ text.head?, Symbol.ofOperator? [c, d] = none) : Lexeme kind lexeme rest := by
  rw [scanSingle] at h
  split at h
  · next s found =>
    simp only [Scan.token.injEq] at h
    obtain ⟨rfl, rfl, rfl⟩ := h
    obtain ⟨member, lexeme_eq⟩ := Symbol.ofOperator?_eq_some_iff.mp found
    rw [← lexeme_eq]
    refine .operator member ?_
    intro d head longer longer_member
    rw [lexeme_eq]
    exact Symbol.ofOperator?_eq_none_iff.mp (longest d head) longer longer_member
  · split at h <;> simp at h

theorem lexeme_of_scanSymbol {c : Char} {text lexeme rest : List Char} {kind : TokenKind}
    (h : scanSymbol c text = .token kind lexeme rest) : Lexeme kind lexeme rest := by
  cases text with
  | nil => exact lexeme_of_scanSingle h (by simp)
  | cons d more =>
    rw [scanSymbol] at h
    split at h
    · next s found =>
      simp only [Scan.token.injEq] at h
      obtain ⟨rfl, rfl, rfl⟩ := h
      obtain ⟨member, lexeme_eq⟩ := Symbol.ofOperator?_eq_some_iff.mp found
      rw [← lexeme_eq]
      refine .operator member ?_
      intro e _ longer longer_member longer_eq
      have short := length_lexeme_of_operator longer_member
      rw [longer_eq, lexeme_eq] at short
      simp at short
    · next none_longer =>
      -- One character is longest because the two do not make an operator.
      apply lexeme_of_scanSingle h
      intro e head
      obtain rfl : d = e := by simpa using head
      exact none_longer

theorem scan_of_takeDigits {digits text rest : List Char} {fraction : Option (List Char)}
    (h : IsDigits digits) (taken : takeDigits (digits ++ text) = (digits, fraction, rest)) :
    scan (digits ++ text) =
      .token (.ofNumber (Numeral.value ⟨false, digits, fraction⟩)) (digits ++ pointed fraction)
        rest := by
  cases digits with
  | nil => exact absurd rfl h.1
  | cons c more =>
    have digit : c.isDigit = true := h.2 c List.mem_cons_self
    rw [List.cons_append] at taken ⊢
    rw [scan_number digit, taken]

theorem lexeme_of_scan_number {c : Char} {text lexeme rest : List Char} {kind : TokenKind}
    (digit : c.isDigit = true) (h : scan (c :: text) = .token kind lexeme rest) :
    Lexeme kind lexeme rest := by
  have whole_digits : IsDigits ((c :: text).takeWhile Char.isDigit) :=
    ⟨by simp [digit], isDigit_of_mem_takeWhile⟩
  rw [scan_number digit] at h
  rcases takeDigits_cases (c :: text) with
    ⟨after, taken, stops⟩ | ⟨fraction, after, taken, digits, stops⟩
  · simp only [taken, pointed, List.append_nil, Scan.token.injEq] at h
    obtain ⟨rfl, rfl, rfl⟩ := h
    rcases toInt_or_wide ((c :: text).takeWhile Char.isDigit) with ⟨n, value_eq⟩ | too_wide
    · rw [value_of_toInt value_eq]
      exact .integer whole_digits value_eq stops
    · rw [value_of_too_wide too_wide]
      exact .wide whole_digits too_wide stops
  · simp only [taken, pointed, Scan.token.injEq] at h
    obtain ⟨rfl, rfl, rfl⟩ := h
    exact .pointed whole_digits digits stops

theorem lexeme_of_scan_word {c : Char} {text lexeme rest : List Char} {kind : TokenKind}
    (start : isWordStart c = true) (h : scan (c :: text) = .token kind lexeme rest) :
    Lexeme kind lexeme rest := by
  have word_eq : (c :: text).takeWhile isWordChar = c :: text.takeWhile isWordChar :=
    List.takeWhile_cons_of_pos (isWordChar_of_isWordStart start)
  have stops : Stops isWordChar ((c :: text).dropWhile isWordChar) := stops_dropWhile _ _
  rw [scan_word start, word_eq] at h
  simp only [Scan.token.injEq] at h
  obtain ⟨rfl, rfl, rfl⟩ := h
  cases found : Symbol.ofWord? (String.ofList (c :: text.takeWhile isWordChar)) with
  | some s =>
    have lexeme_eq := congrArg String.toList (Symbol.lexeme_of_ofWord? found)
    rw [String.toList_ofList] at lexeme_eq
    rw [TokenKind.ofWord, found, ← lexeme_eq]
    exact .reserved (List.mem_of_find?_eq_some found) stops
  | none =>
    rw [TokenKind.ofWord, found]
    exact .name start (List.all_eq_true.mp List.all_takeWhile)
      (Symbol.ofWord?_eq_none_iff.mp found) stops

theorem lexeme_of_scan {text lexeme rest : List Char} {kind : TokenKind}
    (h : scan text = .token kind lexeme rest) : Lexeme kind lexeme rest := by
  cases text with
  | nil => simp [scan] at h
  | cons c text =>
    by_cases quote : c = '"' ∨ c = '\''
    · rw [scan, if_pos quote] at h
      split at h
      · next content passed after taken =>
        simp only [Scan.token.injEq] at h
        obtain ⟨rfl, rfl, rfl⟩ := h
        obtain ⟨body, rfl, quoted⟩ := quoted_of_takeText taken
        exact .text quote quoted
      · simp at h
    · by_cases digit : c.isDigit = true
      · exact lexeme_of_scan_number digit h
      · by_cases start : isWordStart c = true
        · exact lexeme_of_scan_word start h
        · rw [scan_operator quote (by simpa using digit) (by simpa using start)] at h
          exact lexeme_of_scanSymbol h

theorem scan_of_lexeme {text rest : List Char} {kind : TokenKind} (h : Lexeme kind text rest) :
    scan (text ++ rest) = .token kind text rest := by
  cases h with
  | @reserved s _ member stops =>
    obtain ⟨c, word, lexeme_eq, start, all⟩ := exists_lexeme_of_reserved member
    have word_all : ∀ d ∈ c :: word, isWordChar d :=
      List.forall_mem_cons.mpr ⟨isWordChar_of_isWordStart start, all⟩
    have whole : String.ofList (c :: word) = s.lexeme := by
      rw [← lexeme_eq, String.ofList_toList]
    rw [lexeme_eq, List.cons_append, scan_word start, ← List.cons_append,
      takeWhile_append_stops word_all stops, dropWhile_append_stops word_all stops, whole,
      TokenKind.ofWord, Symbol.ofWord?_lexeme member]
  | @name c word _ start all not_reserved stops =>
    have word_all : ∀ d ∈ c :: word, isWordChar d :=
      List.forall_mem_cons.mpr ⟨isWordChar_of_isWordStart start, all⟩
    rw [List.cons_append, scan_word start, ← List.cons_append,
      takeWhile_append_stops word_all stops, dropWhile_append_stops word_all stops,
      TokenKind.ofWord, Symbol.ofWord?_eq_none_iff.mpr not_reserved]
  | @operator s _ member longest =>
    cases lexeme_eq : s.lexeme.toList with
    | nil =>
      have not_empty := length_lexeme_of_operator member
      rw [lexeme_eq] at not_empty
      simp at not_empty
    | cons c more =>
      obtain ⟨not_quote, not_digit, not_word⟩ := head_lexeme_of_operator member lexeme_eq
      rw [List.cons_append, scan_operator not_quote not_digit not_word]
      exact scanSymbol_of_operator member longest lexeme_eq
  | integer digits value_eq stops =>
    rw [scan_of_takeDigits digits (takeDigits_of_numberStops digits.2 stops),
      value_of_toInt value_eq, pointed, List.append_nil, TokenKind.ofNumber]
  | wide digits too_wide stops =>
    rw [scan_of_takeDigits digits (takeDigits_of_numberStops digits.2 stops),
      value_of_too_wide too_wide, pointed, List.append_nil, TokenKind.ofNumber]
  | pointed digits fraction_digits stops =>
    rw [List.append_assoc, List.cons_append,
      scan_of_takeDigits digits (takeDigits_of_point digits.2 fraction_digits stops)]
    rfl
  | @text quote body content _ is_quote quoted =>
    have quote_ne : quote ≠ '\\' := by rcases is_quote with rfl | rfl <;> decide
    rw [List.cons_append, List.cons_append, scan, if_pos is_quote, List.append_assoc,
      List.singleton_append, takeText_of_quoted quoted quote_ne]

/-- Reading finds the one lexeme at the front of a text. -/
theorem scan_iff {text lexeme rest : List Char} {kind : TokenKind} :
    scan text = .token kind lexeme rest ↔ text = lexeme ++ rest ∧ Lexeme kind lexeme rest := by
  constructor
  · intro h
    exact ⟨(scan_token h).1.symm, lexeme_of_scan h⟩
  · rintro ⟨rfl, isLexeme⟩
    exact scan_of_lexeme isLexeme

end Lexer

end FieldScript
