import Mathlib.Control.Monad.Basic
import FieldScript.Proofs.Token.Fault

/-!
# The place of a lexical fault

A script that is not cut into tokens is gaps and lexemes up to the character at fault, which is told
by its location. What stands before that character has tokens of its own, and what stands behind its
line has no part in the fault. Numbers are never at fault.
-/

namespace FieldScript

namespace Location

/-- Text moves a location on, to a later line or further on in the same one. -/
theorem advance_further (place : Location) {text : List Char} (h : text ≠ []) :
    place.line < (place.advance text).line ∨
      place.line = (place.advance text).line ∧ place.column < (place.advance text).column := by
  induction text generalizing place with
  | nil => exact absurd rfl h
  | cons c text ih =>
    have first : place.line < (place.step c).line ∨
        place.line = (place.step c).line ∧ place.column < (place.step c).column := by
      unfold step
      split <;> simp
    rw [advance_cons]
    by_cases last : text = []
    · rw [last, advance_nil]
      exact first
    · have further := ih (place.step c) last
      omega

theorem behind_take_ne {text : List Char} {p q : Nat} (lt : p < q) (hq : q ≤ text.length) :
    behind (text.take p) ≠ behind (text.take q) := by
  have front : text.take p ++ (text.take q).drop p = text.take q := by
    have cut := List.take_append_drop p (text.take q)
    rwa [List.take_take, Nat.min_eq_left (Nat.le_of_lt lt)] at cut
  have more : (text.take q).drop p ≠ [] := by
    rw [ne_eq, List.drop_eq_nil_iff, List.length_take]
    omega
  have moved := advance_further (behind (text.take p)) more
  rw [advance_behind, front] at moved
  intro same
  rw [same] at moved
  omega

/-- A location is that of one character of a text, or of its end. -/
theorem behind_take_inj {text : List Char} {p q : Nat} (hp : p ≤ text.length)
    (hq : q ≤ text.length) (h : behind (text.take p) = behind (text.take q)) : p = q := by
  rcases Nat.lt_trichotomy p q with below | same | above
  · exact absurd h (behind_take_ne below hq)
  · exact same
  · exact absurd h.symm (behind_take_ne above hp)

end Location

namespace Lexer

/-- `Front rest front`: before `rest`, `front` is gaps and lexemes, and ends with a gap. -/
inductive Front (rest : List Char) : List Char → Prop where
  | gap {gap : List Char} : Gap gap rest → Front rest gap
  | lexeme {gap lexeme front : List Char} {kind : TokenKind} :
      Gap gap (lexeme ++ (front ++ rest)) → Lexeme kind lexeme (front ++ rest) →
      Front rest front → Front rest (gap ++ (lexeme ++ front))

/-- Before another text that begins alike, or before the end of the script, a gap is one as well. -/
theorem Gap.congr {gap rest other : List Char} (h : Gap gap rest)
    (alike : ∀ c ∈ other.head?, rest.head? = some c) : Gap gap other := by
  induction h with
  | nil => exact .nil
  | blank space _ ih => exact .blank space (ih alike)
  | @comment body gap rest no_newline ends _ ih =>
    refine .comment no_newline ?_ (ih alike)
    intro c head
    cases gap with
    | nil => exact ends c (alike c head)
    | cons d gap => exact ends c head

theorem Front.congr {rest other front : List Char} (h : Front rest front)
    (alike : ∀ c ∈ other.head?, rest.head? = some c) : Front other front := by
  have alike_behind (text : List Char) :
      ∀ c ∈ (text ++ other).head?, (text ++ rest).head? = some c := by
    cases text with
    | nil => exact alike
    | cons d text => simp
  induction h with
  | gap isGap => exact .gap (isGap.congr alike)
  | @lexeme gap lexeme front kind isGap isLexeme _ ih =>
    have gap_before : Gap gap (lexeme ++ (front ++ other)) := by
      apply isGap.congr
      simpa [← List.append_assoc] using alike_behind (lexeme ++ front)
    exact .lexeme gap_before (isLexeme.congr fun c head => .inl (alike_behind front c head)) ih

namespace Cursor

theorem tokens_of_front {rest front : List Char} (h : Front rest front) (place : Location) :
    ∃ own, (Cursor.mk (front ++ rest) place).tokens =
      (Cursor.mk rest (place.advance front)).tokens.map (own ++ ·) := by
  induction h generalizing place with
  | @gap gap isGap =>
    refine ⟨[], ?_⟩
    rw [tokens_of_gap isGap]
    cases (Cursor.mk rest (place.advance gap)).tokens <;> rfl
  | @lexeme gap lexeme front kind isGap isLexeme _ ih =>
    obtain ⟨own, tokens_eq⟩ := ih ((place.advance gap).advance lexeme)
    refine ⟨⟨kind, place.advance gap⟩ :: own, ?_⟩
    rw [List.append_assoc, List.append_assoc,
      tokens_of_next (next_of_lexeme isGap isLexeme place) isLexeme.kind_ne_eof, tokens_eq,
      Location.advance_append, Location.advance_append]
    cases (Cursor.mk rest _).tokens <;> rfl

/-- What stands before a character at fault is a front. -/
theorem front_of_tokens {cursor : Cursor} {fault : LexicalFault}
    (h : cursor.tokens = .error fault) :
    ∃ front rest passed, cursor.rest = front ++ fault.character :: rest ∧
      Front (fault.character :: rest) front ∧ Solid (fault.character :: rest) ∧
      Unreadable fault.character rest passed ∧ fault.place = cursor.place.advance front := by
  fun_induction Cursor.tokens cursor with
  | case1 cursor found after next_eq =>
    obtain rfl := Except.error.inj h
    rcases fault_cases next_eq with
      ⟨gap, rest, passed, rest_eq, isGap, solid, unreadable, -, place_eq, -⟩
    exact ⟨gap, rest, passed, rest_eq, .gap isGap, solid, unreadable, place_eq⟩
  | case2 => simp at h
  | case3 cursor token after next_eq more ih =>
    have later : after.tokens = .error fault := by
      cases tokens_eq : after.tokens with
      | ok tokens => simp [tokens_eq, Except.map] at h
      | error other => simpa [tokens_eq, Except.map] using h
    rcases next_cases next_eq with
      ⟨_, rfl⟩ | ⟨gap, lexeme, text, kind, text_eq, isGap, isLexeme, rfl, rfl⟩
    · exact absurd rfl more
    · obtain ⟨front, rest, passed, rfl, isFront, solid, unreadable, place_eq⟩ := ih later
      refine ⟨gap ++ (lexeme ++ front), rest, passed, by simp [text_eq],
        .lexeme isGap isLexeme isFront, solid, unreadable, ?_⟩
      rw [place_eq, Location.advance_append, Location.advance_append]

/-- A front and an unreadable character behind it are a fault at that character. -/
theorem tokens_of_unreadable {c : Char} {front rest passed : List Char}
    (isFront : Front (c :: rest) front) (solid : Solid (c :: rest))
    (unreadable : Unreadable c rest passed) (place : Location) :
    (Cursor.mk (front ++ c :: rest) place).tokens = .error ⟨c, place.advance front⟩ := by
  obtain ⟨own, tokens_eq⟩ := tokens_of_front isFront place
  have wrong := next_of_unreadable .nil solid unreadable (place.advance front)
  rw [List.nil_append, Location.advance_nil] at wrong
  rw [tokens_eq, tokens_of_fault (Prod.ext wrong rfl)]
  rfl

/-- A number is read wherever a digit stands. -/
theorem next_of_digit {digit : Char} (h : digit.isDigit = true) (more : List Char)
    (place : Location) :
    ∃ number, (Cursor.mk (digit :: more) place).next.1 = .ok ⟨.ofNumber number, place⟩ := by
  have not_gap : ¬(digit = '#' ∨ isSpace digit = true) := fun gap => by
    simp [not_start_of_gap gap] at h
  have solid : Solid (digit :: more) := solid_cons not_gap
  have taken := takeGap_of_solid solid
  exact ⟨_, by simp only [next, taken, scan_number h]; rfl⟩

end Cursor

theorem tokenize_ofList (text : List Char) :
    tokenize (String.ofList text) = (Cursor.mk text .start).tokens := by
  rw [tokenize, Cursor.ofText, String.toList_ofList]

end Lexer

open Lexer

/-- The character at fault is the one at the place of the fault and no other. What stands before it
has tokens; no token begins with it, or it is half of an operator, or a quote that is not closed;
what stands behind its line could be anything. No number is at fault, however long it is. -/
theorem tokenize_fault_localised (script : String) {fault : LexicalFault}
    (failed : tokenize script = .error fault) :
    (∃ p, script.toList[p]? = some fault.character ∧
      (∀ q ≤ script.toList.length, Location.behind (script.toList.take q) = fault.place ↔ q = p) ∧
      (∃ tokens, tokenize (String.ofList (script.toList.take p)) = .ok tokens) ∧
      (BeginsNothing fault.character ∨ Lone fault.character (script.toList.drop (p + 1)) ∨
        Unclosed fault.character (script.toList.drop (p + 1))) ∧
      ∀ line behind, script.toList.drop p = line ++ '\n' :: behind → '\n' ∉ line → ∀ others,
        tokenize (String.ofList (script.toList.take p ++ line ++ '\n' :: others)) =
          .error fault) ∧
    ∀ digit more place, digit.isDigit = true →
      ∃ number, (Cursor.mk (digit :: more) place).next.1 = .ok ⟨.ofNumber number, place⟩ := by
  rcases Cursor.front_of_tokens failed with
    ⟨front, rest, passed, text_eq, isFront, solid, unreadable, place_eq⟩
  obtain ⟨c, place⟩ := fault
  replace text_eq : script.toList = front ++ c :: rest := text_eq
  obtain rfl : place = Location.behind front := place_eq.trans (Location.advance_behind [] front)
  have before : script.toList.take front.length = front := by rw [text_eq, List.take_left]
  have within : front.length ≤ script.toList.length := by simp [text_eq]
  have behind : script.toList.drop (front.length + 1) = rest := by simp [text_eq]
  refine ⟨⟨front.length, by simp [text_eq], ?_, ?_, ?_, ?_⟩,
    fun _ more place digit => Cursor.next_of_digit digit more place⟩
  · intro q hq
    constructor
    · intro same
      exact Location.behind_take_inj hq within (by rw [same, before])
    · rintro rfl
      rw [before]
  · have nothing_else : ∀ d ∈ ([] : List Char).head?, (c :: rest).head? = some d := by simp
    obtain ⟨own, tokens_eq⟩ := Cursor.tokens_of_front (isFront.congr nothing_else) .start
    rw [List.append_nil, Cursor.tokens_of_last (Cursor.next_of_gap .nil _) rfl] at tokens_eq
    rw [before, tokenize_ofList, tokens_eq]
    exact ⟨_, rfl⟩
  · rw [behind]
    cases unreadable with
    | illegal nothing => exact .inl nothing
    | lone lone => exact .inr (.inl lone)
    | unclosed unclosed => exact .inr (.inr unclosed)
  · intro line after line_eq one_line others
    have at_fault : script.toList.drop front.length = c :: rest := by rw [text_eq, List.drop_left]
    rw [at_fault] at line_eq
    cases line with
    | nil =>
      obtain rfl : c = '\n' := (List.cons.inj line_eq).1
      simpa [isSpace] using solid '\n' rfl
    | cons d line =>
      rw [List.cons_append, List.cons.injEq] at line_eq
      obtain ⟨rfl, rfl⟩ := line_eq
      rw [List.mem_cons, not_or] at one_line
      have same : ∀ d ∈ (c :: (line ++ '\n' :: others)).head?,
          (c :: (line ++ '\n' :: after)).head? = some d := fun d head => head
      rw [before, tokenize_ofList, List.append_assoc, List.cons_append,
        Cursor.tokens_of_unreadable (isFront.congr same) (fun d head => solid d head)
          (unreadable.congr one_line.2 others)]
      exact congrArg _ (congrArg _ (Location.advance_behind [] front))

/-- A comment that hides an illegal character, a number too long for an integer, and on the next
line a literal with an escaped quote which is not closed, though a quote stands further down. -/
theorem tokenize_fault_localised_unclosed :
    let script := "n = 1234567890123456789012 # @\n  print 'it\\'s ;\n'"
    let fault : LexicalFault := ⟨'\'', ⟨2, 9⟩⟩
    tokenize script = .error fault ∧
      (∃ p, script.toList[p]? = some fault.character ∧
        (∀ q ≤ script.toList.length,
          Location.behind (script.toList.take q) = fault.place ↔ q = p) ∧
        (∃ tokens, tokenize (String.ofList (script.toList.take p)) = .ok tokens) ∧
        (BeginsNothing fault.character ∨ Lone fault.character (script.toList.drop (p + 1)) ∨
          Unclosed fault.character (script.toList.drop (p + 1))) ∧
        ∀ line behind, script.toList.drop p = line ++ '\n' :: behind → '\n' ∉ line → ∀ others,
          tokenize (String.ofList (script.toList.take p ++ line ++ '\n' :: others)) =
            .error fault) ∧
      ∀ digit more place, digit.isDigit = true →
        ∃ number, (Cursor.mk (digit :: more) place).next.1 = .ok ⟨.ofNumber number, place⟩ := by
  intro script fault
  have failed : tokenize script = .error fault := by decide +kernel
  exact ⟨failed, tokenize_fault_localised script failed⟩

end FieldScript
