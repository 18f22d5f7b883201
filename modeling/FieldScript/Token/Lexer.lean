import FieldScript.Numeric.Numeral
import FieldScript.Token.Basic

/-!
# Reading tokens

A token is read at the first character after blanks and comments, and is as long as it can be. A
cursor keeps what is left of the script and the location of its next character. An illegal character
stays where it is, so that reading again meets it again; a lone half of a two-character operator is
passed, and so is a string literal up to the newline that breaks it.
-/

namespace FieldScript

/-- A character that begins no token, or a quote that is not closed on its line. -/
structure LexicalFault where
  character : Char
  place : Location
  deriving DecidableEq, Repr

def LexicalFault.message (fault : LexicalFault) : String :=
  "lexical error at " ++ fault.place.describe ++ ": illegal character '" ++
    String.singleton fault.character ++ "'"

namespace Lexer

def isSpace (c : Char) : Bool := c = ' ' || c = '\t' || c = '\r' || c = '\n'

/-- The blanks and comments at the front, and what follows them. A comment runs to the end of its
line. -/
def takeGap (inComment : Bool) : List Char → List Char × List Char
  | [] => ([], [])
  | c :: rest =>
    if inComment || c = '#' || isSpace c then
      let (gap, after) := takeGap ((inComment || c = '#') && c ≠ '\n') rest
      (c :: gap, after)
    else ([], c :: rest)

def isWordStart (c : Char) : Bool := c.isAlpha || c = '_'

def isWordChar (c : Char) : Bool := c.isAlphanum || c = '_'

def unescape : Char → Char
  | 'n' => '\n'
  | 't' => '\t'
  | 'r' => '\r'
  | c => c

/-- The content of a string literal after its opening quote, the characters passed for it, and what
follows. There is no content when the line ends first, even at an escaped newline. -/
def takeText (quote : Char) : List Char → Option (List Char) × List Char × List Char
  | [] => (none, [], [])
  | c :: rest =>
    if c = quote then (some [], [c], rest)
    else if c = '\n' then (none, [c], rest)
    else if c = '\\' then
      match rest with
      | [] => (none, [c], [])
      | d :: rest =>
        if d = '\n' then (none, [c, d], rest)
        else
          let (content, passed, after) := takeText quote rest
          (content.map (unescape d :: ·), c :: d :: passed, after)
    else
      let (content, passed, after) := takeText quote rest
      (content.map (c :: ·), c :: passed, after)

inductive Scan where
  | finished
  | token (kind : TokenKind) (lexeme rest : List Char)
  | fault (character : Char) (passed rest : List Char)

/-- A symbol of one character, or a fault, which passes the lone half of a longer operator. -/
def scanSingle (c : Char) (rest : List Char) : Scan :=
  match Symbol.ofOperator? [c] with
  | some symbol => .token (.symbol symbol) [c] rest
  | none => if c = '&' ∨ c = '|' then .fault c [c] rest else .fault c [] (c :: rest)

/-- Two characters make a symbol if they can. -/
def scanSymbol (c : Char) : List Char → Scan
  | [] => scanSingle c []
  | d :: rest =>
    match Symbol.ofOperator? [c, d] with
    | some symbol => .token (.symbol symbol) [c, d] rest
    | none => scanSingle c (d :: rest)

def scan : List Char → Scan
  | [] => .finished
  | c :: rest =>
    if c = '"' ∨ c = '\'' then
      match takeText c rest with
      | (some content, passed, after) => .token (.text (String.ofList content)) (c :: passed) after
      | (none, passed, after) => .fault c (c :: passed) after
    else if c.isDigit then
      let (whole, fraction, after) := Numeric.takeDigits (c :: rest)
      let numeral : Numeric.Numeral := ⟨false, whole, fraction⟩
      .token (.ofNumber numeral.value) (whole ++ Numeric.pointed fraction) after
    else if isWordStart c then
      let word := (c :: rest).takeWhile isWordChar
      .token (.ofWord (String.ofList word)) word ((c :: rest).dropWhile isWordChar)
    else scanSymbol c rest

theorem takeGap_append (inComment : Bool) (text : List Char) :
    (takeGap inComment text).1 ++ (takeGap inComment text).2 = text := by
  fun_induction takeGap inComment text with
  | case1 => rfl
  | case2 _ c rest _ gap after pair_eq ih => simp_all
  | case3 => rfl

theorem takeText_append (quote : Char) (text : List Char) :
    (takeText quote text).2.1 ++ (takeText quote text).2.2 = text := by
  fun_induction takeText quote text <;> simp_all

theorem isWordChar_of_isWordStart {c : Char} (h : isWordStart c = true) : isWordChar c = true := by
  simp only [isWordStart, isWordChar, Char.isAlphanum, Bool.or_eq_true] at h ⊢
  exact h.imp_left .inl

theorem scanSingle_token {c : Char} {rest lexeme after : List Char} {kind : TokenKind}
    (h : scanSingle c rest = .token kind lexeme after) : lexeme = [c] ∧ after = rest := by
  rw [scanSingle] at h
  split at h
  · simp_all
  · split at h <;> simp at h

theorem scanSymbol_token {c : Char} {rest lexeme after : List Char} {kind : TokenKind}
    (h : scanSymbol c rest = .token kind lexeme after) :
    lexeme ++ after = c :: rest ∧ lexeme ≠ [] := by
  cases rest with
  | nil =>
    obtain ⟨rfl, rfl⟩ := scanSingle_token h
    simp
  | cons d rest =>
    rw [scanSymbol] at h
    split at h
    · simp only [Scan.token.injEq] at h
      obtain ⟨-, rfl, rfl⟩ := h
      simp
    · obtain ⟨rfl, rfl⟩ := scanSingle_token h
      simp

/-- A token is cut off the front, and is not empty. -/
theorem scan_token {text lexeme after : List Char} {kind : TokenKind}
    (h : scan text = .token kind lexeme after) : lexeme ++ after = text ∧ lexeme ≠ [] := by
  cases text with
  | nil => simp [scan] at h
  | cons c rest =>
    rw [scan] at h
    split at h
    · split at h
      · next found =>
        have tiles := takeText_append c rest
        rw [found] at tiles
        simp only [Scan.token.injEq] at h
        obtain ⟨-, rfl, rfl⟩ := h
        simpa using tiles
      · simp at h
    · split at h
      · next digit =>
        have tiles := Numeric.takeDigits_append (c :: rest)
        simp only [Scan.token.injEq] at h
        obtain ⟨-, rfl, rfl⟩ := h
        refine ⟨tiles, ?_⟩
        have whole_ne : (Numeric.takeDigits (c :: rest)).1 ≠ [] := by
          unfold Numeric.takeDigits
          split <;> simp [digit]
        simp [whole_ne]
      · split at h
        · next start =>
          simp only [Scan.token.injEq] at h
          obtain ⟨-, rfl, rfl⟩ := h
          exact ⟨List.takeWhile_append_dropWhile, by simp [isWordChar_of_isWordStart start]⟩
        · exact scanSymbol_token h

/-- A place in a script: what is left to read, and where that begins. -/
structure Cursor where
  rest : List Char
  place : Location
  deriving DecidableEq

namespace Cursor

def ofText (script : String) : Cursor := ⟨script.toList, .start⟩

/-- The next token or fault, and the cursor after what was passed for it. -/
def next (cursor : Cursor) : Except LexicalFault Token × Cursor :=
  let (gap, rest) := takeGap false cursor.rest
  let place := cursor.place.advance gap
  match scan rest with
  | .finished => (.ok ⟨.eof, place⟩, ⟨[], place⟩)
  | .token kind lexeme after => (.ok ⟨kind, place⟩, ⟨after, place.advance lexeme⟩)
  | .fault character passed after =>
    (.error ⟨character, place⟩, ⟨after, place.advance passed⟩)

theorem length_lt_of_next {cursor after : Cursor} {token : Token}
    (h : cursor.next = (.ok token, after)) (more : token.kind ≠ .eof) :
    after.rest.length < cursor.rest.length := by
  have tiles := congrArg List.length (takeGap_append false cursor.rest)
  simp only [next] at h
  split at h
  · simp only [Prod.mk.injEq, Except.ok.injEq] at h
    exact absurd (h.1 ▸ rfl) more
  · next found =>
    simp only [Prod.mk.injEq] at h
    obtain ⟨-, rfl⟩ := h
    obtain ⟨parts_eq, lexeme_ne⟩ := scan_token found
    have := congrArg List.length parts_eq
    have := List.length_pos_iff.mpr lexeme_ne
    simp only [List.length_append] at *
    omega
  · simp at h

/-- All tokens up to the end of the script, its end included, or the first fault. -/
def tokens (cursor : Cursor) : Except LexicalFault (List Token) :=
  match _found : cursor.next with
  | (.error fault, _) => .error fault
  | (.ok token, after) =>
    if _last : token.kind = .eof then .ok [token]
    else (tokens after).map (token :: ·)
termination_by cursor.rest.length
decreasing_by exact length_lt_of_next _found _last

end Cursor

end Lexer

def tokenize (script : String) : Except LexicalFault (List Token) :=
  (Lexer.Cursor.ofText script).tokens

end FieldScript
