import Mathlib.Control.Monad.Basic
import FieldScript.Proofs.Token.Fault

/-!
# Reading again and again

Reading may go on after a fault. A token, a lone half of an operator and an open literal are passed,
so that less of the script is left; at the end of the script and at an illegal character reading
stays, and gives the same result for good. So there are at most as many readings before that as the
script has characters, and its tokens are those of the readings before the first that gives none.
-/

namespace FieldScript.Lexer

/-- The end of the script, or a character that begins nothing. -/
def IsFinal : Except LexicalFault Token → Prop
  | .ok token => token.kind = .eof
  | .error fault => BeginsNothing fault.character

namespace Cursor

def after (cursor : Cursor) : Nat → Cursor
  | 0 => cursor
  | n + 1 => cursor.next.2.after n

def reading (cursor : Cursor) (n : Nat) : Except LexicalFault Token := (cursor.after n).next.1

/-- Reading passes text: a token, a lone half of an operator, or an open literal. -/
def Passes (cursor : Cursor) : Prop :=
  (∃ passed, passed ≠ [] ∧ cursor.rest = passed ++ cursor.next.2.rest) ∧
    ((∃ token, cursor.next.1 = .ok token ∧ token.kind ≠ .eof) ∨
      ∃ gap c rest, cursor.rest = gap ++ c :: rest ∧ Gap gap (c :: rest) ∧
        (Lone c rest ∨ Unclosed c rest) ∧ cursor.next.1 = .error ⟨c, cursor.place.advance gap⟩)

/-- Reading gives a final result, and gives it again. -/
def Stays (cursor : Cursor) : Prop :=
  IsFinal cursor.next.1 ∧ cursor.next.2.next = cursor.next

theorem stays_of_gap {cursor : Cursor} (isGap : Gap cursor.rest []) : cursor.Stays := by
  have ended : cursor.next = _ := next_of_gap isGap cursor.place
  rw [Stays, ended]
  exact ⟨rfl, next_of_gap .nil _⟩

theorem stays_of_beginsNothing {cursor : Cursor} {gap rest : List Char} {c : Char}
    (rest_eq : cursor.rest = gap ++ c :: rest) (isGap : Gap gap (c :: rest))
    (nothing : BeginsNothing c) : cursor.Stays := by
  have solid := nothing.solid rest
  have wrong : cursor.next =
      (.error ⟨c, cursor.place.advance gap⟩, ⟨c :: rest, cursor.place.advance gap⟩) := by
    simp only [next, rest_eq, takeGap_of_gap isGap solid, scan_of_beginsNothing nothing]
    rfl
  rw [Stays, wrong]
  refine ⟨nothing, ?_⟩
  simp only [next, takeGap_of_solid solid, scan_of_beginsNothing nothing]
  rfl

theorem passes_of_token {cursor : Cursor} {gap lexeme rest : List Char} {kind : TokenKind}
    (rest_eq : cursor.rest = gap ++ (lexeme ++ rest)) (isGap : Gap gap (lexeme ++ rest))
    (isLexeme : Lexeme kind lexeme rest) : cursor.Passes := by
  have read := next_of_lexeme isGap isLexeme cursor.place
  rw [← rest_eq] at read
  replace read : cursor.next = _ := read
  rw [Passes, read]
  refine ⟨⟨gap ++ lexeme, ?_, by simp [rest_eq]⟩, .inl ⟨_, rfl, isLexeme.kind_ne_eof⟩⟩
  have lexeme_ne := (scan_token (scan_of_lexeme isLexeme)).2
  simp [lexeme_ne]

/-- A reading passes text, or every later one gives the same. -/
theorem passes_or_stays (cursor : Cursor) : cursor.Passes ∨ cursor.Stays := by
  rcases next_eq : cursor.next with ⟨result, after⟩
  cases result with
  | ok token =>
    rcases next_cases next_eq with ⟨isGap, -⟩ | ⟨_, _, _, _, rest_eq, isGap, isLexeme, -⟩
    · exact .inr (stays_of_gap isGap)
    · exact .inl (passes_of_token rest_eq isGap isLexeme)
  | error fault =>
    rcases fault_cases next_eq with
      ⟨gap, rest, passed, rest_eq, isGap, solid, unreadable, tiles, place_eq, after_eq⟩
    have behind : passed ≠ [] → (Lone fault.character rest ∨ Unclosed fault.character rest) →
        cursor.Passes := by
      intro passed_ne cause
      rw [Passes, next_eq]
      refine ⟨⟨gap ++ passed, by simp [passed_ne], by simp [rest_eq, ← tiles]⟩, .inr ?_⟩
      exact ⟨gap, fault.character, rest, rest_eq, isGap, cause, by rw [← place_eq]⟩
    cases unreadable with
    | illegal nothing => exact .inr (stays_of_beginsNothing rest_eq isGap nothing)
    | lone lone => exact .inl (behind (by simp) (.inl lone))
    | unclosed unclosed => exact .inl (behind (by simp) (.inr unclosed))

theorem Passes.not_final {cursor : Cursor} (h : cursor.Passes) : ¬IsFinal cursor.next.1 := by
  rcases h.2 with ⟨token, read, more⟩ | ⟨gap, c, rest, -, -, cause, wrong⟩
  · rw [read]
    exact more
  · rw [wrong]
    intro nothing
    rcases cause with lone | unclosed
    · exact BeginsNothing.not_half nothing lone.1
    · exact BeginsNothing.not_quote nothing unclosed.1

theorem passes_iff (cursor : Cursor) : cursor.Passes ↔ ¬IsFinal cursor.next.1 := by
  refine ⟨Passes.not_final, fun not_final => ?_⟩
  exact cursor.passes_or_stays.resolve_right fun stays => not_final stays.1

theorem stays_of_final {cursor : Cursor} (h : IsFinal cursor.next.1) : cursor.Stays :=
  cursor.passes_or_stays.resolve_left fun passes => passes.not_final h

theorem Stays.after {cursor : Cursor} (h : cursor.Stays) (n : Nat) :
    (cursor.after n).next = cursor.next := by
  induction n generalizing cursor with
  | zero => rfl
  | succ n ih =>
    have again : cursor.next.2.Stays := by
      rw [Stays, h.2]
      exact h
    rw [Cursor.after, ih again, h.2]

theorem after_add (cursor : Cursor) (m n : Nat) :
    cursor.after (m + n) = (cursor.after m).after n := by
  induction m generalizing cursor with
  | zero => rw [Nat.zero_add, after]
  | succ m ih => rw [Nat.add_right_comm, after, ih, after]

theorem reading_of_final {cursor : Cursor} {m n : Nat} (le : m ≤ n)
    (h : IsFinal (cursor.reading m)) : cursor.reading n = cursor.reading m := by
  rw [reading, ← Nat.add_sub_of_le le, after_add, (stays_of_final h).after]
  rfl

theorem Passes.length_lt {cursor : Cursor} (h : cursor.Passes) :
    cursor.next.2.rest.length < cursor.rest.length := by
  obtain ⟨passed, passed_ne, rest_eq⟩ := h.1
  have := congrArg List.length rest_eq
  have := List.length_pos_iff.mpr passed_ne
  simp only [List.length_append] at *
  omega

/-- Reading stays after as many readings as there are characters, or before. -/
theorem exists_final (cursor : Cursor) :
    ∃ n ≤ cursor.rest.length, (∀ m < n, (cursor.after m).Passes) ∧ IsFinal (cursor.reading n) := by
  rcases cursor.passes_or_stays with passes | stays
  · have shorter := passes.length_lt
    obtain ⟨n, le, all, final⟩ := exists_final cursor.next.2
    refine ⟨n + 1, by omega, ?_, final⟩
    intro m lt
    cases m with
    | zero => exact passes
    | succ m => exact all m (Nat.lt_of_succ_lt_succ lt)
  · exact ⟨0, Nat.zero_le _, by simp, stays.1⟩
termination_by cursor.rest.length

/-- A reading passes text from the front, and the place goes on with it. -/
theorem next_tiles (cursor : Cursor) :
    ∃ passed, cursor.rest = passed ++ cursor.next.2.rest ∧
      cursor.next.2.place = cursor.place.advance passed := by
  rcases next_eq : cursor.next with ⟨result, after⟩
  cases result with
  | ok token =>
    rcases next_cases next_eq with
      ⟨isGap, -⟩ | ⟨gap, lexeme, rest, kind, rest_eq, -, -, -, rfl⟩
    · have ended : cursor.next = _ := next_of_gap isGap cursor.place
      rw [ended] at next_eq
      rw [← (Prod.ext_iff.mp next_eq).2]
      exact ⟨cursor.rest, by simp, rfl⟩
    · exact ⟨gap ++ lexeme, by simp [rest_eq], by rw [Location.advance_append]⟩
  | error fault =>
    obtain ⟨gap, rest, passed, rest_eq, -, -, -, tiles, place_eq, after_eq⟩ := fault_cases next_eq
    refine ⟨gap ++ passed, by simp [rest_eq, ← tiles], ?_⟩
    rw [after_eq, place_eq, Location.advance_append]

theorem after_tiles (cursor : Cursor) (n : Nat) :
    ∃ passed, cursor.rest = passed ++ (cursor.after n).rest ∧
      (cursor.after n).place = cursor.place.advance passed := by
  induction n generalizing cursor with
  | zero => exact ⟨[], rfl, rfl⟩
  | succ n ih =>
    obtain ⟨first, rest_eq, place_eq⟩ := cursor.next_tiles
    obtain ⟨others, others_eq, others_place⟩ := ih cursor.next.2
    refine ⟨first ++ others, ?_, ?_⟩
    · rw [rest_eq, others_eq, List.append_assoc]
      rfl
    · rw [Location.advance_append, ← place_eq, ← others_place]
      rfl

/-- All tokens are the readings up to the first that gives none, or the end of the script. -/
theorem tokens_of_readings (cursor : Cursor) :
    ∃ own : List Token, own.length ≤ cursor.rest.length ∧
      (∀ m token, own[m]? = some token → cursor.reading m = .ok token ∧ token.kind ≠ .eof) ∧
      ((∃ eof, cursor.reading own.length = .ok eof ∧ eof.kind = .eof ∧
          cursor.tokens = .ok (own ++ [eof])) ∨
        ∃ fault, cursor.reading own.length = .error fault ∧ cursor.tokens = .error fault) := by
  fun_induction Cursor.tokens cursor with
  | case1 cursor fault after next_eq =>
    exact ⟨[], Nat.zero_le _, by simp, .inr ⟨fault, congrArg Prod.fst next_eq, rfl⟩⟩
  | case2 cursor token after next_eq last =>
    exact ⟨[], Nat.zero_le _, by simp, .inl ⟨token, congrArg Prod.fst next_eq, last, rfl⟩⟩
  | case3 cursor token after next_eq more ih =>
    have shorter := length_lt_of_next next_eq more
    have later (n : Nat) : cursor.reading (n + 1) = after.reading n := by
      rw [reading, Cursor.after, next_eq, reading]
    obtain ⟨own, length_le, own_eq, ending⟩ := ih
    refine ⟨token :: own, by simp; omega, ?_, ?_⟩
    · intro m other found
      cases m with
      | zero =>
        obtain rfl : token = other := by simpa using found
        exact ⟨congrArg Prod.fst next_eq, more⟩
      | succ m =>
        rw [later]
        exact own_eq m other (by simpa using found)
    · rw [List.length_cons, later]
      rcases ending with ⟨eof, read, last, tokens_eq⟩ | ⟨fault, wrong, tokens_eq⟩
      · exact .inl ⟨eof, read, last, by rw [tokens_eq]; rfl⟩
      · exact .inr ⟨fault, wrong, by rw [tokens_eq]; rfl⟩

end Cursor

/-- Each reading passes text or is final, and a final one is repeated for good, in its place. There
are at most as many readings before that as the script has characters. Cutting a script into tokens
ends with the first reading that gives no token or the end of the script. -/
theorem reading_repeated (script : String) :
    let cursor := Cursor.ofText script
    (∀ n, ∃ passed, script.toList = passed ++ (cursor.after n).rest ∧
      (cursor.after n).place = .behind passed) ∧
    (∀ n, (cursor.after n).Passes ↔ ¬IsFinal (cursor.reading n)) ∧
    (∀ m n, m ≤ n → IsFinal (cursor.reading m) → cursor.reading n = cursor.reading m) ∧
    (∃ n ≤ script.length, (∀ m < n, (cursor.after m).Passes) ∧ IsFinal (cursor.reading n)) ∧
    ∃ own : List Token, own.length ≤ script.length ∧
      (∀ m token, own[m]? = some token → cursor.reading m = .ok token ∧ token.kind ≠ .eof) ∧
      ((∃ eof, cursor.reading own.length = .ok eof ∧ eof.kind = .eof ∧
          tokenize script = .ok (own ++ [eof])) ∨
        ∃ fault, cursor.reading own.length = .error fault ∧ tokenize script = .error fault) := by
  intro cursor
  refine ⟨?_, fun n => Cursor.passes_iff _, fun m n => Cursor.reading_of_final, ?_, ?_⟩
  · intro n
    obtain ⟨passed, rest_eq, place_eq⟩ := cursor.after_tiles n
    exact ⟨passed, rest_eq, place_eq.trans (Location.advance_behind [] passed)⟩
  · exact cursor.exists_final
  · exact cursor.tokens_of_readings

end FieldScript.Lexer
