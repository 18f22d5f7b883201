import FieldScript.Proofs.Token.Tiling

/-!
# Tokens that stand apart

What follows a lexeme matters by its first character only, and a blank never makes a token longer.
So a newline behind a script keeps its tokens from what follows, and the tokens of what follows are
read as those of a text of its own, only further down.
-/

namespace FieldScript

namespace Location

/-- The location so many lines further down. -/
def down (lines : Nat) (place : Location) : Location := ⟨place.line + lines, place.column⟩

theorem step_down (lines : Nat) (place : Location) (c : Char) :
    (place.down lines).step c = (place.step c).down lines := by
  unfold step
  split <;> simp [down, Nat.add_right_comm]

theorem advance_down (lines : Nat) (place : Location) (text : List Char) :
    (place.down lines).advance text = (place.advance text).down lines := by
  induction text generalizing place with
  | nil => rfl
  | cons c text ih => rw [advance_cons, advance_cons, step_down, ih]

end Location

def Token.relocate (f : Location → Location) (token : Token) : Token :=
  ⟨token.kind, f token.place⟩

def LexicalFault.relocate (f : Location → Location) (fault : LexicalFault) : LexicalFault :=
  ⟨fault.character, f fault.place⟩

namespace Lexer

/-- What follows begins as before, or with a blank. -/
def StartsAlike (rest other : List Char) : Prop :=
  ∀ c ∈ other.head?, rest.head? = some c ∨ isSpace c = true

variable {rest other : List Char}

theorem stops_of_startsAlike {p : Char → Bool} (h : Stops p rest) (alike : StartsAlike rest other)
    (no_space : ∀ c, isSpace c = true → p c = false) : Stops p other := by
  intro c head
  rcases alike c head with same | space
  · exact h c same
  · exact no_space c space

theorem not_wordChar_of_isSpace (c : Char) (h : isSpace c = true) : isWordChar c = false := by
  simp only [isSpace, Bool.or_eq_true, decide_eq_true_eq] at h
  rcases h with ((rfl | rfl) | rfl) | rfl <;> decide

theorem not_digit_of_isSpace (c : Char) (h : isSpace c = true) :
    (c.isDigit || c = '.') = false := by
  simp only [isSpace, Bool.or_eq_true, decide_eq_true_eq] at h
  rcases h with ((rfl | rfl) | rfl) | rfl <;> decide

theorem noLonger_of_startsAlike {s : Symbol} (h : NoLonger s rest)
    (alike : StartsAlike rest other) : NoLonger s other := by
  have no_blank : (Symbol.operators.all fun longer =>
      longer.lexeme.toList.all fun c => !isSpace c) = true := by
    decide +kernel
  intro c head longer member lexeme_eq
  rcases alike c head with same | space
  · exact h c same longer member lexeme_eq
  · have not_space := List.all_eq_true.mp (List.all_eq_true.mp no_blank longer member) c
      (by simp [lexeme_eq])
    simp [space] at not_space

/-- A lexeme is one before all that begins alike. -/
theorem Lexeme.congr {kind : TokenKind} {text : List Char} (h : Lexeme kind text rest)
    (alike : StartsAlike rest other) : Lexeme kind text other := by
  cases h with
  | reserved member stops =>
    exact .reserved member (stops_of_startsAlike stops alike not_wordChar_of_isSpace)
  | name start all not_reserved stops =>
    exact .name start all not_reserved (stops_of_startsAlike stops alike not_wordChar_of_isSpace)
  | operator member longest => exact .operator member (noLonger_of_startsAlike longest alike)
  | integer digits value_eq stops =>
    exact .integer digits value_eq (stops_of_startsAlike stops alike not_digit_of_isSpace)
  | wide digits too_wide stops =>
    exact .wide digits too_wide (stops_of_startsAlike stops alike not_digit_of_isSpace)
  | pointed digits fraction_digits stops =>
    refine .pointed digits fraction_digits (stops_of_startsAlike stops alike fun c space => ?_)
    exact (Bool.or_eq_false_iff.mp (not_digit_of_isSpace c space)).1
  | text is_quote quoted => exact .text is_quote quoted

theorem startsAlike_newline (rest more : List Char) : StartsAlike rest (rest ++ '\n' :: more) := by
  intro c head
  cases rest with
  | nil =>
    obtain rfl : '\n' = c := by simpa using head
    exact .inr (by decide)
  | cons d rest => exact .inl head

/-- A gap stays one when a new line follows: a comment that ran to the end of the script ends
there. -/
theorem Gap.newline {gap : List Char} (h : Gap gap rest) (more : List Char) :
    Gap gap (rest ++ '\n' :: more) := by
  induction h with
  | nil => exact .nil
  | blank space _ ih => exact .blank space ih
  | @comment body gap rest no_newline ends _ ih =>
    refine .comment no_newline (fun c head => ?_) ih
    rw [← List.append_assoc] at head
    cases behind : gap ++ rest with
    | nil =>
      rw [behind] at head
      simpa using head.symm
    | cons d after =>
      rw [behind] at ends head
      exact ends c head

theorem Gap.append {gap more : List Char} (h : Gap gap (more ++ rest)) (second : Gap more rest) :
    Gap (gap ++ more) rest := by
  obtain ⟨behind, behind_eq⟩ : ∃ behind, more ++ rest = behind := ⟨_, rfl⟩
  rw [behind_eq] at h
  induction h with
  | nil => exact second
  | blank space _ ih => exact .blank space (ih behind_eq)
  | @comment body gap _ no_newline ends _ ih =>
    rw [← behind_eq, ← List.append_assoc] at ends
    simpa using Gap.comment no_newline ends (ih behind_eq)

theorem Tiling.ne_nil {before text : List Char} {tokens : List Token}
    (h : Tiling before text tokens) : tokens ≠ [] := by
  cases h <;> simp

theorem Tiling.ends {before text : List Char} {tokens : List Token}
    (h : Tiling before text tokens) :
    ∃ own eof, tokens = own ++ [⟨.eof, eof⟩] ∧ ∀ token ∈ own, token.kind ≠ .eof := by
  induction h with
  | @finish before gap _ => exact ⟨[], .behind (before ++ gap), rfl, by simp⟩
  | @token before gap _ _ kind _ _ isLexeme _ ih =>
    obtain ⟨own, eof, rfl, own_ne⟩ := ih
    refine ⟨⟨kind, .behind (before ++ gap)⟩ :: own, eof, rfl, ?_⟩
    exact List.forall_mem_cons.mpr ⟨isLexeme.kind_ne_eof, own_ne⟩

namespace Cursor

theorem tokens_of_gap {gap : List Char} (h : Gap gap rest) (place : Location) :
    (Cursor.mk (gap ++ rest) place).tokens = (Cursor.mk rest (place.advance gap)).tokens := by
  have behind_gap : (takeGap false (gap ++ rest)) =
      (gap ++ (takeGap false rest).1, (takeGap false rest).2) := by
    rw [takeGap_iff, List.append_assoc, takeGap_append]
    refine ⟨rfl, ?_, solid_takeGap false rest⟩
    exact Gap.append (by rwa [takeGap_append]) (gap_takeGap rest)
  have same_next : (Cursor.mk (gap ++ rest) place).next =
      (Cursor.mk rest (place.advance gap)).next := by
    simp only [next, behind_gap, Location.advance_append]
  rw [tokens.eq_def, tokens.eq_def (Cursor.mk rest (place.advance gap)), same_next]

/-- With a newline and more text behind it, a script keeps its tokens up to its end, and the tokens
of what follows the newline come next. -/
theorem tokens_append_newline {before text : List Char} {all : List Token}
    (h : Tiling before text all) (more : List Char) :
    (Cursor.mk (text ++ '\n' :: more) (.behind before)).tokens =
      (Cursor.mk more (.behind (before ++ text ++ ['\n']))).tokens.map (all.dropLast ++ ·) := by
  induction h with
  | @finish before gap isGap =>
    have whole_gap : Gap (gap ++ ['\n']) more := by
      refine Gap.append ?_ (Gap.blank (by decide) .nil)
      simpa using isGap.newline more
    have passed := tokens_of_gap whole_gap (.behind before)
    rw [List.append_assoc, List.singleton_append, Location.advance_behind] at passed
    rw [passed, List.append_assoc]
    cases (Cursor.mk more _).tokens <;> rfl
  | @token before gap lexeme rest kind others isGap isLexeme tiled ih =>
    have longer_gap : Gap gap (lexeme ++ (rest ++ '\n' :: more)) := by
      simpa using isGap.newline more
    have first := next_of_lexeme longer_gap (isLexeme.congr (startsAlike_newline rest more))
      (.behind before)
    rw [List.append_assoc, List.append_assoc, tokens_of_next first isLexeme.kind_ne_eof,
      Location.advance_behind, Location.advance_behind, ih,
      List.dropLast_cons_of_ne_nil tiled.ne_nil]
    simp only [List.append_assoc]
    cases (Cursor.mk more _).tokens <;> rfl

theorem tokens_of_fault {cursor after : Cursor} {fault : LexicalFault}
    (h : cursor.next = (.error fault, after)) : cursor.tokens = .error fault := by
  rw [tokens]
  split
  · next found => simp_all
  · next found => simp [h] at found

/-- What is read at a place further down is what is read here, further down. -/
theorem next_down (lines : Nat) (cursor : Cursor) :
    (Cursor.mk cursor.rest (cursor.place.down lines)).next =
      ((cursor.next.1.map (Token.relocate (Location.down lines))).mapError
          (LexicalFault.relocate (Location.down lines)),
        ⟨cursor.next.2.rest, cursor.next.2.place.down lines⟩) := by
  simp only [next, Location.advance_down]
  cases scan (takeGap false cursor.rest).2 <;> rfl

theorem tokens_down (lines : Nat) (cursor : Cursor) :
    (Cursor.mk cursor.rest (cursor.place.down lines)).tokens =
      (cursor.tokens.map (List.map (Token.relocate (Location.down lines)))).mapError
        (LexicalFault.relocate (Location.down lines)) := by
  fun_induction Cursor.tokens cursor with
  | case1 cursor fault after found =>
    have moved := next_down lines cursor
    rw [found] at moved
    rw [tokens_of_fault moved]
    rfl
  | case2 cursor token after found last =>
    have moved := next_down lines cursor
    rw [found] at moved
    rw [tokens_of_last moved last]
    rfl
  | case3 cursor token after found more ih =>
    have moved := next_down lines cursor
    rw [found] at moved
    rw [tokens_of_next moved more, ih]
    cases after.tokens <;> rfl

end Cursor

end Lexer

end FieldScript
