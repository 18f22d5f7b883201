import FieldScript.Proofs.Token.Gap
import FieldScript.Proofs.Token.Lexeme

/-!
# Scripts as gaps and lexemes

The tokens of a script are those of its lexemes, one behind the other with gaps between them, each
at the location that counting the lines and columns before its lexeme gives. There is no other way
to cut the script, and one that can be cut so has these tokens.
-/

namespace FieldScript

namespace Location

/-- The location behind a text: one more than its newlines, and than the characters of its last
line. -/
def behind (text : List Char) : Location :=
  ⟨1 + text.count '\n', 1 + (text.reverse.takeWhile (· ≠ '\n')).length⟩

theorem behind_snoc (text : List Char) (c : Char) :
    behind (text ++ [c]) = (behind text).step c := by
  by_cases newline : c = '\n'
  · subst newline
    simp [behind, step, Nat.add_assoc]
  · simp [behind, step, newline, Nat.add_assoc]

theorem advance_behind (before text : List Char) :
    (behind before).advance text = behind (before ++ text) := by
  induction text generalizing before with
  | nil => simp
  | cons c text ih =>
    rw [advance_cons, ← behind_snoc, ih, List.append_assoc, List.singleton_append]

end Location

namespace Lexer

/-- A character of a gap begins nothing but a gap. -/
theorem not_start_of_gap {c : Char} (h : c = '#' ∨ isSpace c = true) :
    isWordStart c = false ∧ c.isDigit = false ∧ ¬(c = '"' ∨ c = '\'') := by
  simp only [isSpace, Bool.or_eq_true, decide_eq_true_eq] at h
  rcases h with rfl | ((rfl | rfl) | rfl) | rfl <;> decide

theorem solid_of_digits {digits : List Char} (h : Numeric.IsDigits digits) (rest : List Char) :
    Solid (digits ++ rest) := by
  cases digits with
  | nil => exact absurd rfl h.1
  | cons c more =>
    have digit : c.isDigit = true := h.2 c List.mem_cons_self
    exact solid_cons fun gap => by simp [not_start_of_gap gap] at digit

theorem Lexeme.solid {text rest : List Char} {kind : TokenKind} (h : Lexeme kind text rest) :
    Solid (text ++ rest) := by
  cases h with
  | reserved member _ =>
    obtain ⟨c, word, lexeme_eq, start, -⟩ := exists_lexeme_of_reserved member
    rw [lexeme_eq]
    exact solid_cons fun gap => by simp [not_start_of_gap gap] at start
  | name start _ _ _ => exact solid_cons fun gap => by simp [not_start_of_gap gap] at start
  | @operator s _ member _ =>
    have all : ∀ s ∈ Symbol.operators, s.lexeme.toList.head?.any fun c =>
        ¬(c = '#' ∨ isSpace c = true) := by decide +kernel
    have holds := all s member
    cases lexeme_eq : s.lexeme.toList with
    | nil => simp [lexeme_eq] at holds
    | cons c more =>
      rw [lexeme_eq] at holds
      exact solid_cons (by simpa using holds)
  | integer digits _ _ => exact solid_of_digits digits rest
  | wide digits _ _ => exact solid_of_digits digits rest
  | pointed digits _ _ =>
    rw [List.append_assoc]
    exact solid_of_digits digits _
  | text is_quote _ => exact solid_cons fun gap => (not_start_of_gap gap).2.2 is_quote

theorem Lexeme.kind_ne_eof {text rest : List Char} {kind : TokenKind} (h : Lexeme kind text rest) :
    kind ≠ .eof := by
  cases h <;> simp

theorem scanSingle_ne_finished (c : Char) (rest : List Char) : scanSingle c rest ≠ .finished := by
  rw [scanSingle]
  split
  · simp
  · split <;> simp

theorem scanSymbol_ne_finished (c : Char) (rest : List Char) : scanSymbol c rest ≠ .finished := by
  cases rest with
  | nil => exact scanSingle_ne_finished c []
  | cons d rest =>
    rw [scanSymbol]
    split
    · simp
    · exact scanSingle_ne_finished c (d :: rest)

theorem eq_nil_of_scan {text : List Char} (h : scan text = .finished) : text = [] := by
  cases text with
  | nil => rfl
  | cons c rest =>
    rw [scan] at h
    split at h
    · split at h <;> simp at h
    · split at h
      · simp at h
      · split at h
        · simp at h
        · exact absurd h (scanSymbol_ne_finished c rest)

/-- `Tiling before text tokens`: behind `before`, `text` is gaps and the lexemes of `tokens` up to
the end of the script, where the last gap ends. -/
inductive Tiling : List Char → List Char → List Token → Prop where
  | finish {before gap : List Char} : Gap gap [] →
      Tiling before gap [⟨.eof, .behind (before ++ gap)⟩]
  | token {before gap lexeme rest : List Char} {kind : TokenKind} {tokens : List Token} :
      Gap gap (lexeme ++ rest) → Lexeme kind lexeme rest →
      Tiling (before ++ gap ++ lexeme) rest tokens →
      Tiling before (gap ++ (lexeme ++ rest)) (⟨kind, .behind (before ++ gap)⟩ :: tokens)

namespace Cursor

theorem next_of_gap {gap : List Char} (h : Gap gap []) (place : Location) :
    (Cursor.mk gap place).next = (.ok ⟨.eof, place.advance gap⟩, ⟨[], place.advance gap⟩) := by
  have taken : takeGap false gap = (gap, []) := by
    rw [takeGap_iff, List.append_nil]
    exact ⟨rfl, h, by simp [Solid]⟩
  simp only [next, taken, scan]

theorem next_of_lexeme {gap lexeme rest : List Char} {kind : TokenKind}
    (isGap : Gap gap (lexeme ++ rest)) (isLexeme : Lexeme kind lexeme rest) (place : Location) :
    (Cursor.mk (gap ++ (lexeme ++ rest)) place).next =
      (.ok ⟨kind, place.advance gap⟩, ⟨rest, (place.advance gap).advance lexeme⟩) := by
  simp only [next, takeGap_of_gap isGap isLexeme.solid, scan_of_lexeme isLexeme]

theorem tokens_of_last {cursor after : Cursor} {token : Token}
    (h : cursor.next = (.ok token, after)) (last : token.kind = .eof) :
    cursor.tokens = .ok [token] := by
  rw [tokens]
  split
  · next found => simp [h] at found
  · next found =>
    rw [h] at found
    simp only [Prod.mk.injEq, Except.ok.injEq] at found
    obtain ⟨rfl, rfl⟩ := found
    rw [dif_pos last]

theorem tokens_of_next {cursor after : Cursor} {token : Token}
    (h : cursor.next = (.ok token, after)) (more : token.kind ≠ .eof) :
    cursor.tokens = after.tokens.map (token :: ·) := by
  rw [tokens]
  split
  · next found => simp [h] at found
  · next found =>
    rw [h] at found
    simp only [Prod.mk.injEq, Except.ok.injEq] at found
    obtain ⟨rfl, rfl⟩ := found
    rw [dif_neg more]

/-- What is read next is the end of the script or a lexeme behind a gap. -/
theorem next_cases {cursor after : Cursor} {token : Token} (h : cursor.next = (.ok token, after)) :
    (Gap cursor.rest [] ∧ token = ⟨.eof, cursor.place.advance cursor.rest⟩) ∨
      ∃ gap lexeme rest kind, cursor.rest = gap ++ (lexeme ++ rest) ∧ Gap gap (lexeme ++ rest) ∧
        Lexeme kind lexeme rest ∧ token = ⟨kind, cursor.place.advance gap⟩ ∧
        after = ⟨rest, (cursor.place.advance gap).advance lexeme⟩ := by
  rcases taken : takeGap false cursor.rest with ⟨gap, text⟩
  obtain ⟨rest_eq, isGap, -⟩ := takeGap_iff.mp taken
  simp only [next, taken] at h
  split at h
  · next finished =>
    obtain rfl := eq_nil_of_scan finished
    rw [List.append_nil] at rest_eq
    simp only [Prod.mk.injEq, Except.ok.injEq] at h
    exact .inl ⟨rest_eq ▸ isGap, by rw [← h.1, rest_eq]⟩
  · next kind lexeme rest found =>
    obtain ⟨rfl, isLexeme⟩ := scan_iff.mp found
    simp only [Prod.mk.injEq, Except.ok.injEq] at h
    exact .inr ⟨gap, lexeme, rest, kind, rest_eq, isGap, isLexeme, h.1.symm, h.2.symm⟩
  · simp at h

theorem tiling_of_tokens {cursor : Cursor} {before : List Char} {tokens : List Token}
    (h : cursor.tokens = .ok tokens) (place_eq : cursor.place = .behind before) :
    Tiling before cursor.rest tokens := by
  fun_induction Cursor.tokens cursor generalizing before tokens with
  | case1 => simp at h
  | case2 cursor token after found last =>
    simp only [Except.ok.injEq] at h
    rcases next_cases found with ⟨isGap, rfl⟩ | ⟨_, _, _, _, _, _, isLexeme, rfl, _⟩
    · rw [← h, place_eq, Location.advance_behind]
      exact .finish isGap
    · exact absurd last isLexeme.kind_ne_eof
  | case3 cursor token after found more ih =>
    rcases next_cases found with
      ⟨_, rfl⟩ | ⟨gap, lexeme, rest, kind, rest_eq, isGap, isLexeme, rfl, rfl⟩
    · exact absurd rfl more
    · cases others_eq : (Cursor.mk rest ((cursor.place.advance gap).advance lexeme)).tokens with
      | error fault => simp [others_eq, Except.map] at h
      | ok others =>
        simp only [others_eq, Except.map, Except.ok.injEq] at h
        rw [← h, rest_eq, place_eq, Location.advance_behind]
        apply Tiling.token isGap isLexeme
        apply ih others_eq
        rw [place_eq, Location.advance_behind, Location.advance_behind]

theorem tokens_of_tiling {before text : List Char} {tokens : List Token}
    (h : Tiling before text tokens) : (Cursor.mk text (.behind before)).tokens = .ok tokens := by
  induction h with
  | @finish before gap isGap =>
    rw [tokens_of_last (next_of_gap isGap _) rfl, Location.advance_behind]
  | @token before gap lexeme rest kind tokens isGap isLexeme _ ih =>
    rw [tokens_of_next (next_of_lexeme isGap isLexeme _) isLexeme.kind_ne_eof,
      Location.advance_behind, Location.advance_behind, ih]
    rfl

end Cursor

end Lexer

/-- A script has these tokens exactly when it is gaps and their lexemes. -/
theorem tokenize_iff_tiling (script : String) (tokens : List Token) :
    tokenize script = .ok tokens ↔ Lexer.Tiling [] script.toList tokens := by
  constructor
  · intro h
    exact Lexer.Cursor.tiling_of_tokens h rfl
  · intro h
    exact Lexer.Cursor.tokens_of_tiling h

end FieldScript
