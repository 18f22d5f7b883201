import FieldScript.CommandLine.Arguments
import FieldScript.Proofs.Token.Tiling

/-!
# Names on the command line

An assignment on the command line is cut at its first equals sign. Main statement: it is accepted
exactly when the lexer reads the part before that sign as one word and nothing else.
-/

namespace FieldScript

/-- The script is one token, which is the script itself as a name or a reserved word. -/
def IsOneWord (script : String) : Prop :=
  ∃ kind place last, tokenize script = .ok [⟨kind, place⟩, ⟨.eof, last⟩] ∧
    (kind = .name script ∨ ∃ s ∈ Symbol.reserved, s.lexeme = script ∧ kind = .symbol s)

namespace CommandLine

open Lexer

theorem isName_cons (c : Char) (word : List Char) :
    isName (c :: word) = true ↔ isWordStart c = true ∧ ∀ d ∈ word, isWordChar d = true := by
  rw [isName, Bool.and_eq_true, List.all_eq_true]

/-- A name is a lexeme where nothing follows it. -/
theorem lexeme_of_isName {text : List Char} (h : isName text = true) :
    Lexeme (.ofWord (String.ofList text)) text [] := by
  cases text with
  | nil => cases h
  | cons c word =>
    obtain ⟨start, all⟩ := (isName_cons c word).mp h
    have word_all : ∀ d ∈ c :: word, isWordChar d = true :=
      List.forall_mem_cons.mpr ⟨isWordChar_of_isWordStart start, all⟩
    have none_left : Stops isWordChar [] := by simp [Stops]
    have taken := takeWhile_append_stops word_all none_left
    have left := dropWhile_append_stops word_all none_left
    rw [List.append_nil] at taken left
    have scanned := scan_word start word
    rw [taken, left] at scanned
    exact lexeme_of_scan scanned

theorem tokenize_of_isName {text : List Char} (h : isName text = true) :
    tokenize (String.ofList text) = .ok
      [⟨.ofWord (String.ofList text), .behind []⟩, ⟨.eof, .behind text⟩] := by
  have lexeme := lexeme_of_isName h
  have tiled : Tiling [] text
      [⟨.ofWord (String.ofList text), .behind []⟩, ⟨.eof, .behind text⟩] := by
    simpa using @Tiling.token [] [] text [] _ _ .nil (by simpa using lexeme) (.finish .nil)
  rw [tokenize, Cursor.ofText, String.toList_ofList]
  exact Cursor.tokens_of_tiling tiled

/-- What is read as a name has the characters of one. -/
theorem isName_of_tiling {script : String} {before text : List Char} {place : Location}
    {others : List Token} (h : Tiling before text (⟨.name script, place⟩ :: others)) :
    isName script.toList = true := by
  cases h with
  | token _ lexeme _ =>
    cases lexeme with
    | name start all =>
      rw [String.toList_ofList]
      exact (isName_cons _ _).mpr ⟨start, all⟩

theorem isName_of_reserved {s : Symbol} (h : s ∈ Symbol.reserved) :
    isName s.lexeme.toList = true := by
  obtain ⟨c, word, lexeme_eq, start, all⟩ := exists_lexeme_of_reserved h
  rw [lexeme_eq]
  exact (isName_cons c word).mpr ⟨start, all⟩

theorem isName_iff (script : String) : isName script.toList = true ↔ IsOneWord script := by
  constructor
  · intro h
    have read := tokenize_of_isName h
    rw [String.ofList_toList] at read
    refine ⟨_, _, _, read, ?_⟩
    rw [TokenKind.ofWord]
    cases found : Symbol.ofWord? script with
    | none => exact .inl rfl
    | some s =>
      exact .inr ⟨s, List.mem_of_find?_eq_some found, Symbol.lexeme_of_ofWord? found, rfl⟩
  · rintro ⟨kind, place, last, read, rfl | ⟨s, member, rfl, -⟩⟩
    · exact isName_of_tiling (Cursor.tiling_of_tokens read (rfl : _ = Location.behind []))
    · exact isName_of_reserved member

def beforeSign (text : String) : String := String.ofList (text.toList.takeWhile (· ≠ '='))

section Split

variable {name value : String} (first : '=' ∉ name.toList)

include first

theorem parts_of_split :
    (name ++ "=" ++ value).toList.takeWhile (· ≠ '=') = name.toList ∧
      (name ++ "=" ++ value).toList.dropWhile (· ≠ '=') = '=' :: value.toList := by
  have all : ∀ c ∈ name.toList, decide (c ≠ '=') = true := by
    intro c member
    simpa using fun c_eq : c = '=' => first (c_eq ▸ member)
  have stops : Stops (fun c => decide (c ≠ '=')) ('=' :: value.toList) := by simp [Stops]
  have text_eq : (name ++ "=" ++ value).toList = name.toList ++ '=' :: value.toList := by simp
  rw [text_eq]
  exact ⟨takeWhile_append_stops all stops, dropWhile_append_stops all stops⟩

theorem beforeSign_of_split : beforeSign (name ++ "=" ++ value) = name := by
  rw [beforeSign, (parts_of_split first).1, String.ofList_toList]

/-- An assignment is cut at its first equals sign. -/
theorem readAssignment_of_split :
    readAssignment (name ++ "=" ++ value) =
      if isName name.toList then .ok (name, value)
      else .error ("invalid variable name '" ++ name ++ "'") := by
  obtain ⟨taken, left⟩ := @parts_of_split name value first
  simp only [readAssignment, taken, left, String.ofList_toList]

end Split

theorem exists_split {text : String} (sign : '=' ∈ text.toList) :
    ∃ name value, '=' ∉ name.toList ∧ text = name ++ "=" ++ value := by
  obtain ⟨name, value, text_eq, first⟩ := List.eq_append_cons_of_mem sign
  refine ⟨String.ofList name, String.ofList value, by simpa using first, ?_⟩
  apply String.toList_inj.mp
  simp [text_eq]

theorem readAssignment_of_no_sign {text : String} (no_sign : '=' ∉ text.toList) :
    readAssignment text =
      .error ("invalid variable assignment '" ++ text ++ "', expected NAME=VALUE") := by
  have all : ∀ c ∈ text.toList, decide (c ≠ '=') = true := by
    intro c member
    simpa using fun c_eq : c = '=' => no_sign (c_eq ▸ member)
  have stops : Stops (fun c => decide (c ≠ '=')) [] := by simp [Stops]
  have nothing_left := dropWhile_append_stops all stops
  rw [List.append_nil] at nothing_left
  simp only [readAssignment, nothing_left]

theorem readAssignment_eq_ok_iff (text name value : String) :
    readAssignment text = .ok (name, value) ↔
      isName name.toList = true ∧ '=' ∉ name.toList ∧ name ++ "=" ++ value = text := by
  constructor
  · intro h
    by_cases sign : '=' ∈ text.toList
    · obtain ⟨n, v, first, rfl⟩ := exists_split sign
      rw [readAssignment_of_split first] at h
      split at h
      · next named =>
        simp only [Except.ok.injEq, Prod.mk.injEq] at h
        obtain ⟨rfl, rfl⟩ := h
        exact ⟨named, first, rfl⟩
      · cases h
    · rw [readAssignment_of_no_sign sign] at h
      cases h
  · rintro ⟨named, first, rfl⟩
    rw [readAssignment_of_split first, if_pos named]

theorem exists_readAssignment_iff (text : String) :
    (∃ pair, readAssignment text = .ok pair) ↔
      '=' ∈ text.toList ∧ isName (beforeSign text).toList = true := by
  constructor
  · rintro ⟨⟨name, value⟩, h⟩
    obtain ⟨named, first, rfl⟩ := (readAssignment_eq_ok_iff text name value).mp h
    rw [beforeSign_of_split first]
    exact ⟨by simp, named⟩
  · rintro ⟨sign, named⟩
    obtain ⟨name, value, first, rfl⟩ := exists_split sign
    rw [beforeSign_of_split first] at named
    exact ⟨(name, value), (readAssignment_eq_ok_iff _ _ _).mpr ⟨named, first, rfl⟩⟩

/-- An assignment is accepted exactly when it has an equals sign and the lexer reads what stands
before the first one as one word. It is then that word and all that stands behind the sign. Every
other text is refused. -/
theorem readAssignment_iff_one_word (text : String) :
    ((∃ pair, readAssignment text = .ok pair) ↔
        '=' ∈ text.toList ∧ IsOneWord (beforeSign text)) ∧
      (∀ name value, readAssignment text = .ok (name, value) ↔
        IsOneWord name ∧ '=' ∉ name.toList ∧ name ++ "=" ++ value = text) ∧
      ((∃ reason, readAssignment text = .error reason) ↔
        ¬('=' ∈ text.toList ∧ IsOneWord (beforeSign text))) := by
  have accepted : (∃ pair, readAssignment text = .ok pair) ↔
      '=' ∈ text.toList ∧ IsOneWord (beforeSign text) := by
    rw [exists_readAssignment_iff, isName_iff]
  refine ⟨accepted, fun name value => ?_, ?_⟩
  · rw [readAssignment_eq_ok_iff, isName_iff]
  · rw [← accepted]
    cases readAssignment text with
    | ok pair => simp
    | error reason => simp

/-- A reserved word may be assigned to, and the value may hold further signs. -/
example : readAssignment "for==a=b" = .ok ("for", "=a=b") := by rfl

end CommandLine

end FieldScript
