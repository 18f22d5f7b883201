import FieldScript.Proofs.Token.Apart

/-!
# Where no token is read

A character with which no gap and no lexeme begins is at fault by itself, an ampersand or a bar when
it is not doubled, and a quote when the literal that it opens is not closed on its line. Such a
character is passed over, or not, in a way of its own: an illegal one stays, a lone one is passed,
and an open literal is passed with its line. What follows the line has no part in the fault.
-/

namespace FieldScript.Lexer

open Numeric

def BeginsNothing (c : Char) : Prop :=
  c ≠ '#' ∧ isSpace c = false ∧ ∀ kind more rest, ¬Lexeme kind (c :: more) rest

/-- Half of an operator that is written with this character twice, without its other half. -/
def Lone (c : Char) (rest : List Char) : Prop := (c = '&' ∨ c = '|') ∧ rest.head? ≠ some c

/-- The body of a literal, and then the quote that closes it, stand at the front of the text. -/
def Closes (quote : Char) (text : List Char) : Prop :=
  ∃ body content rest, text = body ++ quote :: rest ∧ Quoted quote body content

/-- A quote that opens a literal which is not closed. -/
def Unclosed (c : Char) (rest : List Char) : Prop := (c = '"' ∨ c = '\'') ∧ ¬Closes c rest

def firstLine (text : List Char) : List Char :=
  text.takeWhile (· ≠ '\n') ++ (text.dropWhile (· ≠ '\n')).take 1

/-- `Unreadable c rest passed`: no token is read at `c` before `rest`, and `passed` is passed over
there. -/
inductive Unreadable (c : Char) (rest : List Char) : List Char → Prop where
  | illegal : BeginsNothing c → Unreadable c rest []
  | lone : Lone c rest → Unreadable c rest [c]
  | unclosed : Unclosed c rest → Unreadable c rest (c :: firstLine rest)

theorem firstLine_cons {c : Char} (h : c ≠ '\n') (text : List Char) :
    firstLine (c :: text) = c :: firstLine text := by
  simp [firstLine, h]

theorem firstLine_newline (text : List Char) : firstLine ('\n' :: text) = ['\n'] := by
  simp [firstLine]

theorem firstLine_append_newline {line : List Char} (h : '\n' ∉ line) (text : List Char) :
    firstLine (line ++ '\n' :: text) = line ++ ['\n'] := by
  induction line with
  | nil => exact firstLine_newline text
  | cons c line ih =>
    rw [List.mem_cons, not_or] at h
    rw [List.cons_append, firstLine_cons (Ne.symm h.1), ih h.2, List.cons_append]

theorem Quoted.no_newline {quote : Char} {body content : List Char}
    (h : Quoted quote body content) : '\n' ∉ body := by
  induction h with
  | nil => simp
  | plain _ not_newline _ _ ih => simp [ih, Ne.symm not_newline]
  | escaped not_newline _ ih => simp [ih, Ne.symm not_newline]

theorem not_backslash_of_quote {c : Char} (h : c = '"' ∨ c = '\'') : c ≠ '\\' := by
  rcases h with rfl | rfl <;> decide

/-- A literal that is not closed is passed with its line. -/
theorem takeText_passed {quote : Char} {text : List Char} (h : (takeText quote text).1 = none) :
    (takeText quote text).2.1 = firstLine text := by
  fun_induction takeText quote text with
  | case1 => rfl
  | case2 => simp at h
  | case3 => rw [firstLine_newline]
  | case4 => rfl
  | case5 rest _ not_newline =>
    change ['\\', '\n'] = _
    rw [firstLine_cons not_newline, firstLine_newline]
  | case6 d rest not_newline content passed after taken not_quote backslash ih =>
    rw [taken] at ih
    rw [firstLine_cons backslash, firstLine_cons not_newline, ← ih (by simpa using h)]
  | case7 c rest not_quote not_newline not_backslash content passed after taken ih =>
    rw [taken] at ih
    rw [firstLine_cons not_newline, ← ih (by simpa using h)]

theorem takeText_of_not_closes {quote : Char} {text : List Char} (h : ¬Closes quote text) :
    ∃ after, takeText quote text = (none, firstLine text, after) := by
  rcases taken : takeText quote text with ⟨content, passed, after⟩
  cases content with
  | none =>
    have unread : (takeText quote text).1 = none := by rw [taken]
    have line_eq := takeText_passed unread
    rw [taken] at line_eq
    exact ⟨after, by rw [← line_eq]⟩
  | some content =>
    have tiles := takeText_append quote text
    obtain ⟨body, rfl, quoted⟩ := quoted_of_takeText taken
    rw [taken, List.append_assoc] at tiles
    exact absurd ⟨body, content, after, tiles.symm, quoted⟩ h

/-- An operator begins with one of a single character, or is a doubled ampersand or bar. -/
theorem operator_head_cases {s : Symbol} (h : s ∈ Symbol.operators) {c : Char} {more : List Char}
    (lexeme_eq : s.lexeme.toList = c :: more) :
    (c = '&' ∨ c = '|') ∨ Symbol.ofOperator? [c] ≠ none := by
  have all : ∀ s ∈ Symbol.operators, s.lexeme.toList.head?.all fun c =>
      (c = '&' ∨ c = '|') ∨ Symbol.ofOperator? [c] ≠ none := by decide +kernel
  have holds := all s h
  rw [lexeme_eq] at holds
  simpa using holds

theorem Lexeme.head_cases {kind : TokenKind} {text rest : List Char} (h : Lexeme kind text rest)
    {c : Char} {more : List Char} (text_eq : text = c :: more) :
    isWordStart c = true ∨ c.isDigit = true ∨ (c = '"' ∨ c = '\'') ∨ (c = '&' ∨ c = '|') ∨
      Symbol.ofOperator? [c] ≠ none := by
  have digits_head {digits : List Char} (isDigits : IsDigits digits) (behind : List Char)
      (digits_eq : digits ++ behind = c :: more) : c.isDigit = true := by
    cases digits with
    | nil => exact absurd rfl isDigits.1
    | cons d digits =>
      rw [← (List.cons.inj digits_eq).1]
      exact isDigits.2 d List.mem_cons_self
  cases h with
  | reserved member _ =>
    obtain ⟨d, word, lexeme_eq, start, -⟩ := exists_lexeme_of_reserved member
    rw [text_eq, List.cons.injEq] at lexeme_eq
    exact .inl (lexeme_eq.1 ▸ start)
  | name start _ _ _ => exact .inl ((List.cons.inj text_eq).1 ▸ start)
  | operator member _ => exact .inr (.inr (.inr (operator_head_cases member text_eq)))
  | integer digits _ _ => exact .inr (.inl (digits_head digits [] (by simpa using text_eq)))
  | wide digits _ _ => exact .inr (.inl (digits_head digits [] (by simpa using text_eq)))
  | pointed digits _ _ => exact .inr (.inl (digits_head digits _ text_eq))
  | text is_quote _ => exact .inr (.inr (.inl ((List.cons.inj text_eq).1 ▸ is_quote)))

theorem unreadable_of_scanSingle {c d : Char} {rest passed after : List Char}
    (solid : Solid (c :: rest)) (not_quote : ¬(c = '"' ∨ c = '\''))
    (not_digit : c.isDigit = false) (not_word : isWordStart c = false)
    (not_doubled : c = '&' ∨ c = '|' → rest.head? ≠ some c)
    (h : scanSingle c rest = .fault d passed after) :
    d = c ∧ passed ++ after = c :: rest ∧ Unreadable c rest passed := by
  rw [scanSingle] at h
  split at h
  · simp at h
  · next no_operator =>
    split at h
    · next half =>
      simp only [Scan.fault.injEq] at h
      obtain ⟨rfl, rfl, rfl⟩ := h
      exact ⟨rfl, rfl, .lone ⟨half, not_doubled half⟩⟩
    · next not_half =>
      simp only [Scan.fault.injEq] at h
      obtain ⟨rfl, rfl, rfl⟩ := h
      obtain ⟨not_hash, not_space⟩ := solid c rfl
      refine ⟨rfl, rfl, .illegal ⟨not_hash, not_space, ?_⟩⟩
      intro kind more behind isLexeme
      have head := isLexeme.head_cases rfl
      simp [not_word, not_digit, not_quote, not_half, no_operator] at head

theorem unreadable_of_scanSymbol {c d : Char} {rest passed after : List Char}
    (solid : Solid (c :: rest)) (not_quote : ¬(c = '"' ∨ c = '\''))
    (not_digit : c.isDigit = false) (not_word : isWordStart c = false)
    (h : scanSymbol c rest = .fault d passed after) :
    d = c ∧ passed ++ after = c :: rest ∧ Unreadable c rest passed := by
  cases rest with
  | nil => exact unreadable_of_scanSingle solid not_quote not_digit not_word (by simp) h
  | cons e rest =>
    rw [scanSymbol] at h
    split at h
    · simp at h
    · next no_operator =>
      apply unreadable_of_scanSingle solid not_quote not_digit not_word _ h
      intro half doubled
      obtain rfl : e = c := by simpa using doubled
      rcases half with rfl | rfl
      · exact absurd no_operator (by decide +kernel)
      · exact absurd no_operator (by decide +kernel)

/-- Where something solid stands and no token is read, the character there is unreadable. -/
theorem unreadable_of_scan {c d : Char} {rest passed after : List Char} (solid : Solid (c :: rest))
    (h : scan (c :: rest) = .fault d passed after) :
    d = c ∧ passed ++ after = c :: rest ∧ Unreadable c rest passed := by
  by_cases quote : c = '"' ∨ c = '\''
  · rw [scan, if_pos quote] at h
    by_cases closes : Closes c rest
    · obtain ⟨body, content, behind, rfl, quoted⟩ := closes
      rw [takeText_of_quoted quoted (not_backslash_of_quote quote)] at h
      simp at h
    · have tiles := takeText_append c rest
      obtain ⟨behind, taken⟩ := takeText_of_not_closes closes
      rw [taken] at h tiles
      simp only [Scan.fault.injEq] at h
      obtain ⟨rfl, rfl, rfl⟩ := h
      exact ⟨rfl, by simpa using tiles, .unclosed ⟨quote, closes⟩⟩
  · by_cases digit : c.isDigit = true
    · simp [scan_number digit] at h
    · by_cases start : isWordStart c = true
      · simp [scan_word start] at h
      · rw [Bool.not_eq_true] at digit start
        rw [scan_operator quote digit start] at h
        exact unreadable_of_scanSymbol solid quote digit start h

theorem BeginsNothing.not_half {c : Char} (h : BeginsNothing c) : ¬(c = '&' ∨ c = '|') := by
  rintro (rfl | rfl)
  · exact h.2.2 _ ['&'] [] (.operator (s := .andAnd) (by decide) (by simp [NoLonger]))
  · exact h.2.2 _ ['|'] [] (.operator (s := .orOr) (by decide) (by simp [NoLonger]))

theorem BeginsNothing.not_quote {c : Char} (h : BeginsNothing c) : ¬(c = '"' ∨ c = '\'') :=
  fun quote => h.2.2 _ [c] [] (.text quote .nil)

theorem BeginsNothing.solid {c : Char} (h : BeginsNothing c) (rest : List Char) :
    Solid (c :: rest) :=
  solid_cons (by rw [not_or, Bool.not_eq_true]; exact ⟨h.1, h.2.1⟩)

theorem scan_of_beginsNothing {c : Char} (h : BeginsNothing c) (rest : List Char) :
    scan (c :: rest) = .fault c [] (c :: rest) := by
  cases found : scan (c :: rest) with
  | finished => simpa using eq_nil_of_scan found
  | token kind lexeme after =>
    obtain ⟨text_eq, isLexeme⟩ := scan_iff.mp found
    cases lexeme with
    | nil => exact absurd rfl (scan_token found).2
    | cons d more =>
      obtain rfl := (List.cons.inj text_eq).1
      exact absurd isLexeme (h.2.2 kind more after)
  | fault d passed after =>
    obtain ⟨rfl, tiles, unreadable⟩ := unreadable_of_scan (h.solid rest) found
    cases unreadable with
    | illegal => rw [← tiles, List.nil_append]
    | lone lone => exact absurd lone.1 h.not_half
    | unclosed unclosed => exact absurd unclosed.1 h.not_quote

/-- An operator that begins with an ampersand or a bar is the doubled one. -/
theorem ofOperator?_half {c : Char} (half : c = '&' ∨ c = '|') {more : List Char}
    (not_doubled : more ≠ [c]) : Symbol.ofOperator? (c :: more) = none := by
  have all : ∀ s ∈ Symbol.operators, s.lexeme.toList.head?.all fun d =>
      ¬(d = '&' ∨ d = '|') ∨ s.lexeme.toList = [d, d] := by decide +kernel
  rw [Symbol.ofOperator?_eq_none_iff]
  intro s member lexeme_eq
  have holds := all s member
  rw [lexeme_eq, List.head?_cons, Option.all_some, decide_eq_true_iff] at holds
  rcases holds with not_half | doubled
  · exact not_half half
  · rw [List.cons.injEq] at doubled
    exact not_doubled doubled.2

theorem scan_of_lone {c : Char} {rest : List Char} (h : Lone c rest) :
    scan (c :: rest) = .fault c [c] rest := by
  obtain ⟨half, single⟩ := h
  have no_other : ¬(c = '"' ∨ c = '\'') ∧ c.isDigit = false ∧ isWordStart c = false := by
    rcases half with rfl | rfl <;> decide
  have alone : scanSingle c rest = .fault c [c] rest := by
    rw [scanSingle, ofOperator?_half half (by simp)]
    exact if_pos half
  rw [scan_operator no_other.1 no_other.2.1 no_other.2.2]
  cases rest with
  | nil => exact alone
  | cons d rest =>
    have not_doubled : [d] ≠ [c] := by simpa using single
    rw [scanSymbol, ofOperator?_half half not_doubled]
    exact alone

theorem scan_of_unclosed {c : Char} {rest : List Char} (h : Unclosed c rest) :
    ∃ after, scan (c :: rest) = .fault c (c :: firstLine rest) after := by
  obtain ⟨after, taken⟩ := takeText_of_not_closes h.2
  exact ⟨after, by rw [scan, if_pos h.1, taken]⟩

theorem scan_of_unreadable {c : Char} {rest passed : List Char} (h : Unreadable c rest passed) :
    ∃ after, scan (c :: rest) = .fault c passed after := by
  cases h with
  | illegal nothing => exact ⟨_, scan_of_beginsNothing nothing rest⟩
  | lone lone => exact ⟨_, scan_of_lone lone⟩
  | unclosed unclosed => exact scan_of_unclosed unclosed

variable {line behind : List Char}

theorem Closes.congr {quote : Char} (not_newline : quote ≠ '\n')
    (others : List Char) (h : Closes quote (line ++ '\n' :: behind)) :
    Closes quote (line ++ '\n' :: others) := by
  obtain ⟨body, content, rest, text_eq, quoted⟩ := h
  rcases List.append_eq_append_iff.mp text_eq with
    ⟨more, body_eq, rest_eq⟩ | ⟨more, line_eq, rest_eq⟩
  · cases more with
    | nil => exact absurd (List.cons.inj rest_eq).1.symm not_newline
    | cons d more =>
      have newline_mem : '\n' ∈ body := by
        rw [body_eq, (List.cons.inj rest_eq).1]
        simp
      exact absurd newline_mem quoted.no_newline
  · cases more with
    | nil => exact absurd (List.cons.inj rest_eq).1 not_newline
    | cons d more =>
      obtain rfl : quote = d := (List.cons.inj rest_eq).1
      exact ⟨body, content, more ++ '\n' :: others, by simp [line_eq], quoted⟩

/-- A fault depends on the line that it is in, and not on what follows. -/
theorem Unreadable.congr {c : Char} {passed : List Char} (one_line : '\n' ∉ line)
    (others : List Char) (h : Unreadable c (line ++ '\n' :: behind) passed) :
    Unreadable c (line ++ '\n' :: others) passed := by
  cases h with
  | illegal nothing => exact .illegal nothing
  | lone lone =>
    refine .lone ⟨lone.1, ?_⟩
    cases line with
    | nil => exact lone.2
    | cons d line => exact lone.2
  | unclosed unclosed =>
    have not_newline : c ≠ '\n' := by rcases unclosed.1 with rfl | rfl <;> decide
    rw [firstLine_append_newline one_line, ← firstLine_append_newline one_line others]
    exact .unclosed ⟨unclosed.1, fun closes => unclosed.2 (closes.congr not_newline behind)⟩

namespace Cursor

/-- The character at fault stands behind a gap, and what is passed for it begins there. -/
theorem fault_cases {cursor after : Cursor} {fault : LexicalFault}
    (h : cursor.next = (.error fault, after)) :
    ∃ gap rest passed, cursor.rest = gap ++ fault.character :: rest ∧
      Gap gap (fault.character :: rest) ∧ Solid (fault.character :: rest) ∧
      Unreadable fault.character rest passed ∧ passed ++ after.rest = fault.character :: rest ∧
      fault.place = cursor.place.advance gap ∧ after.place = fault.place.advance passed := by
  rcases taken : takeGap false cursor.rest with ⟨gap, text⟩
  obtain ⟨rest_eq, isGap, solid⟩ := takeGap_iff.mp taken
  simp only [next, taken] at h
  split at h
  · simp at h
  · simp at h
  · next character passed behind found =>
    simp only [Prod.mk.injEq, Except.error.injEq] at h
    obtain ⟨rfl, rfl⟩ := h
    cases text with
    | nil => simp [scan] at found
    | cons c rest =>
      obtain ⟨rfl, tiles, unreadable⟩ := unreadable_of_scan solid found
      exact ⟨gap, rest, passed, rest_eq, isGap, solid, unreadable, tiles, rfl, rfl⟩

theorem next_of_unreadable {c : Char} {gap rest passed : List Char} (isGap : Gap gap (c :: rest))
    (solid : Solid (c :: rest)) (unreadable : Unreadable c rest passed) (place : Location) :
    (Cursor.mk (gap ++ c :: rest) place).next.1 = .error ⟨c, place.advance gap⟩ := by
  obtain ⟨after, found⟩ := scan_of_unreadable unreadable
  simp only [next, takeGap_of_gap isGap solid, found]

end Cursor

end FieldScript.Lexer
