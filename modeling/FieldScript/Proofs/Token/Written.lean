import FieldScript.Proofs.Token.Apart

/-!
# Writing tokens out

Every token but a float has a text that it can be written with: an integer its digits, a text a
literal between double quotes, where only what would end the literal or its line is escaped, a name
itself, and a symbol its spelling. Main statement: tokens that are written with a space between them
are read back as they were.
-/

namespace FieldScript

namespace TokenKind

def escape : Char → List Char
  | '\\' => ['\\', '\\']
  | '"' => ['\\', '"']
  | '\n' => ['\\', 'n']
  | c => [c]

/-- The text of a token. Floats and the end of the script have none. -/
def written : TokenKind → String
  | integer n => toString n.toInt
  | text s => String.ofList ('"' :: s.toList.flatMap escape ++ ['"'])
  | name x => x
  | symbol s => s.lexeme
  | float _ | eof => ""

/-- Tokens that scripts have by themselves: an integer has no sign, and a name is a word that is not
reserved. -/
def IsWritable : TokenKind → Prop
  | integer n => 0 ≤ n.toInt
  | name x => x.toList.head?.any Lexer.isWordStart ∧ x.toList.all Lexer.isWordChar ∧
      ∀ s ∈ Symbol.reserved, s.lexeme ≠ x
  | text _ | symbol _ => True
  | float _ | eof => False

instance : DecidablePred IsWritable
  | integer n => inferInstanceAs (Decidable (0 ≤ n.toInt))
  | name x => inferInstanceAs (Decidable (x.toList.head?.any Lexer.isWordStart ∧
      x.toList.all Lexer.isWordChar ∧ ∀ s ∈ Symbol.reserved, s.lexeme ≠ x))
  | text _ | symbol _ => inferInstanceAs (Decidable True)
  | float _ | eof => inferInstanceAs (Decidable False)

end TokenKind

theorem Symbol.mem_reserved_or_operators (s : Symbol) : s ∈ reserved ∨ s ∈ operators := by
  cases s <;> decide

namespace Lexer

open Numeric TokenKind

theorem quoted_escape (content : List Char) : Quoted '"' (content.flatMap escape) content := by
  induction content with
  | nil => exact .nil
  | cons c content ih =>
    rw [List.flatMap_cons]
    by_cases backslash : c = '\\'
    · subst backslash
      exact .escaped (by decide) ih
    by_cases quote : c = '"'
    · subst quote
      exact .escaped (by decide) ih
    by_cases newline : c = '\n'
    · subst newline
      exact .escaped (c := 'n') (by decide) ih
    have plain : escape c = [c] := by
      unfold escape
      split <;> simp_all
    rw [plain]
    exact .plain quote newline backslash ih

theorem isDigits_repr (n : Nat) : IsDigits n.repr.toList := by
  rw [Nat.toList_repr]
  exact isDigits_toDigits n

theorem digitsValue_repr (n : Nat) : digitsValue n.repr.toList = n := by
  rw [Nat.toList_repr, digitsValue_toDigits]

theorem lexeme_integer {n : Int64} (h : 0 ≤ n.toInt) :
    Lexeme (.integer n) (toString n.toInt).toList [] := by
  obtain ⟨m, value_eq⟩ := Int.eq_ofNat_of_zero_le h
  rw [value_eq]
  refine .integer (isDigits_repr m) ?_ (by simp [NumberStops, Stops])
  rw [value_eq]
  exact congrArg Int.ofNat (digitsValue_repr m).symm

/-- What a token is written with is its lexeme, where nothing follows. -/
theorem lexeme_written {kind : TokenKind} (h : kind.IsWritable) :
    Lexeme kind kind.written.toList [] := by
  cases kind with
  | integer n => exact lexeme_integer h
  | text s =>
    rw [written, String.toList_ofList]
    have literal : Lexeme (.text (String.ofList s.toList)) ('"' :: s.toList.flatMap escape ++ ['"'])
        [] := .text (.inl rfl) (quoted_escape s.toList)
    rwa [String.ofList_toList] at literal
  | name x =>
    obtain ⟨start, all, not_reserved⟩ := h
    obtain ⟨cs, rfl⟩ : ∃ cs, String.ofList cs = x := ⟨x.toList, String.ofList_toList⟩
    rw [written]
    rw [String.toList_ofList] at start all ⊢
    cases cs with
    | nil => simp at start
    | cons c word =>
      rw [List.all_cons, Bool.and_eq_true] at all
      exact .name start (List.all_eq_true.mp all.2) not_reserved (by simp [Stops])
  | symbol s =>
    rcases Symbol.mem_reserved_or_operators s with word | operator
    · exact .reserved word (by simp [Stops])
    · exact .operator operator (by simp [NoLonger])
  | float x => exact absurd h id
  | eof => exact absurd h id

def spaced (kinds : List TokenKind) : List Char :=
  kinds.flatMap fun kind => ' ' :: kind.written.toList

theorem startsAlike_spaced (kinds : List TokenKind) : StartsAlike [] (spaced kinds) := by
  intro c head
  cases kinds with
  | nil => simp [spaced] at head
  | cons kind kinds =>
    obtain rfl : ' ' = c := by simpa [spaced] using head
    exact .inr (by decide)

theorem tiling_spaced {kinds : List TokenKind} (h : ∀ kind ∈ kinds, kind.IsWritable)
    (before : List Char) :
    ∃ tokens, Tiling before (spaced kinds) tokens ∧ tokens.map Token.kind = kinds ++ [.eof] := by
  induction kinds generalizing before with
  | nil => exact ⟨_, .finish .nil, rfl⟩
  | cons kind kinds ih =>
    obtain ⟨writable, others⟩ := List.forall_mem_cons.mp h
    have lexeme := (lexeme_written writable).congr (startsAlike_spaced kinds)
    obtain ⟨tokens, tiled, kinds_eq⟩ := ih others (before ++ [' '] ++ kind.written.toList)
    refine ⟨_, .token (.blank (by decide) .nil) lexeme tiled, ?_⟩
    rw [List.map_cons, kinds_eq, List.cons_append]

theorem toList_intercalate_written (kind : TokenKind) (kinds : List TokenKind) :
    (" ".intercalate ((kind :: kinds).map written)).toList =
      kind.written.toList ++ spaced kinds := by
  rw [String.toList_intercalate]
  induction kinds generalizing kind with
  | nil => simp [spaced]
  | cons next kinds ih =>
    rw [List.map_cons, List.map_cons, List.map_cons, List.map_cons, List.intercalate_cons_cons,
      ← List.map_cons, ← List.map_cons, ih]
    simp [spaced]

end Lexer

open TokenKind in
/-- Tokens that are written out with a space between any two are read back, and then the end of the
script. -/
theorem tokenize_written {kinds : List TokenKind} (h : ∀ kind ∈ kinds, kind.IsWritable) :
    (tokenize (" ".intercalate (kinds.map written))).map (List.map Token.kind) =
      .ok (kinds ++ [.eof]) := by
  suffices tiled : ∃ tokens, Lexer.Tiling [] (" ".intercalate (kinds.map written)).toList tokens ∧
      tokens.map Token.kind = kinds ++ [.eof] by
    obtain ⟨tokens, tiled, kinds_eq⟩ := tiled
    have read : tokenize (" ".intercalate (kinds.map written)) = .ok tokens :=
      Lexer.Cursor.tokens_of_tiling tiled
    rw [read, Except.map, kinds_eq]
  cases kinds with
  | nil => exact ⟨_, .finish .nil, rfl⟩
  | cons kind kinds =>
    obtain ⟨writable, others⟩ := List.forall_mem_cons.mp h
    have lexeme := (Lexer.lexeme_written writable).congr (Lexer.startsAlike_spaced kinds)
    obtain ⟨tokens, tiled, kinds_eq⟩ := Lexer.tiling_spaced others kind.written.toList
    rw [Lexer.toList_intercalate_written]
    refine ⟨_, @Lexer.Tiling.token [] _ _ _ _ _ .nil lexeme tiled, ?_⟩
    rw [List.map_cons, kinds_eq, List.cons_append]

/-- A literal with quotes of both kinds, a tab and an escaped newline, the largest integer, an
operator and one that it begins, and words that nearly are reserved. -/
theorem tokenize_written_line :
    let kinds : List TokenKind := [.text "a\"\\\n#'\té", .integer 9223372036854775807,
      .symbol .plus, .symbol .plusPlus, .name "ifx", .symbol .ifWord, .name "_", .text ""]
    " ".intercalate (kinds.map TokenKind.written) =
        "\"a\\\"\\\\\\n#'\té\" 9223372036854775807 + ++ ifx if _ \"\"" ∧
      (tokenize (" ".intercalate (kinds.map TokenKind.written))).map (List.map Token.kind) =
        .ok (kinds ++ [.eof]) := by
  intro kinds
  exact ⟨by decide +kernel, tokenize_written (by decide +kernel)⟩

end FieldScript
