import FieldScript.Proofs.Text.Runs
import FieldScript.Token.Lexer

/-!
# Gaps

A gap is a stretch of blanks and comments. What is taken at the front of a text is the one gap there
that something solid follows.
-/

namespace FieldScript.Lexer

/-- The text is over or goes on in a new line. -/
def LineEnds (text : List Char) : Prop := ∀ c ∈ text.head?, c = '\n'

/-- The text does not go on with a blank or a comment. -/
def Solid (text : List Char) : Prop := ∀ c ∈ text.head?, c ≠ '#' ∧ isSpace c = false

theorem solid_cons {c : Char} {rest : List Char} (h : ¬(c = '#' ∨ isSpace c = true)) :
    Solid (c :: rest) := by
  intro d head
  obtain rfl : c = d := by simpa using head
  rwa [not_or, Bool.not_eq_true] at h

/-- `Gap gap rest`: before `rest`, `gap` is blanks and comments, each comment up to the end of its
line. -/
inductive Gap : List Char → List Char → Prop where
  | nil {rest : List Char} : Gap [] rest
  | blank {c : Char} {gap rest : List Char} : isSpace c → Gap gap rest → Gap (c :: gap) rest
  | comment {body gap rest : List Char} : '\n' ∉ body → LineEnds (gap ++ rest) → Gap gap rest →
      Gap ('#' :: body ++ gap) rest

theorem takeGap_of_solid {rest : List Char} (h : Solid rest) : takeGap false rest = ([], rest) := by
  cases rest with
  | nil => rfl
  | cons c more =>
    obtain ⟨not_hash, not_space⟩ := h c rfl
    simp [takeGap, not_hash, not_space]

/-- At the end of its line, a comment is over. -/
theorem takeGap_of_lineEnds {text : List Char} (h : LineEnds text) :
    takeGap true text = takeGap false text := by
  cases text with
  | nil => rfl
  | cons c more =>
    obtain rfl := h c rfl
    rfl

theorem takeGap_comment {body : List Char} (h : '\n' ∉ body) (text : List Char) :
    takeGap true (body ++ text) = (body ++ (takeGap true text).1, (takeGap true text).2) := by
  induction body with
  | nil => rfl
  | cons c body ih =>
    rw [List.mem_cons, not_or] at h
    have inside : ((true || c = '#') && c ≠ '\n') = true := by simpa using Ne.symm h.1
    rw [List.cons_append, takeGap, if_pos (by simp), inside, ih h.2]
    rfl

/-- A gap before something solid is taken as a whole. -/
theorem takeGap_of_gap {gap rest : List Char} (h : Gap gap rest) (solid : Solid rest) :
    takeGap false (gap ++ rest) = (gap, rest) := by
  induction h with
  | nil => exact takeGap_of_solid solid
  | @blank c gap rest space _ ih =>
    have outside : ((false || c = '#') && c ≠ '\n') = false := by
      have not_hash : c ≠ '#' := by
        rintro rfl
        simp [isSpace] at space
      simp [not_hash]
    rw [List.cons_append, takeGap, if_pos (by simp [space]), outside, ih solid]
  | comment no_newline ends _ ih =>
    rw [List.append_assoc, List.cons_append, takeGap, if_pos (by simp)]
    change ('#' :: (takeGap true _).1, (takeGap true _).2) = _
    rw [takeGap_comment no_newline, takeGap_of_lineEnds ends, ih solid]
    rfl

theorem solid_takeGap (inComment : Bool) (text : List Char) :
    Solid (takeGap inComment text).2 := by
  induction text generalizing inComment with
  | nil => simp [takeGap, Solid]
  | cons c text ih =>
    rw [takeGap]
    by_cases inside : (inComment || c = '#' || isSpace c) = true
    · rw [if_pos inside]
      exact ih _
    · rw [if_neg inside]
      apply solid_cons
      intro gap
      exact inside (by rcases gap with hash | space <;> simp [*])

/-- The recursion passes a comment at once, up to the newline that ends it. -/
theorem gap_takeGap (text : List Char) : Gap (takeGap false text).1 (takeGap false text).2 := by
  match text with
  | [] => exact .nil
  | c :: text =>
    by_cases hash : c = '#'
    · subst hash
      let body := text.takeWhile (· ≠ '\n')
      let more := text.dropWhile (· ≠ '\n')
      have no_newline : '\n' ∉ body := by
        intro member
        simpa using List.all_eq_true.mp List.all_takeWhile _ member
      have ends : LineEnds more := by
        intro c head
        simpa using stops_dropWhile (· ≠ '\n') text c head
      have text_eq : text = body ++ more := List.takeWhile_append_dropWhile.symm
      have shorter : more.length ≤ text.length := (List.dropWhile_sublist _).length_le
      have taken : takeGap false ('#' :: text) =
          ('#' :: body ++ (takeGap false more).1, (takeGap false more).2) := by
        rw [takeGap, if_pos (by simp)]
        change ('#' :: (takeGap true text).1, (takeGap true text).2) = _
        rw [text_eq, takeGap_comment no_newline, takeGap_of_lineEnds ends]
        rfl
      rw [taken]
      exact .comment no_newline (by rwa [takeGap_append]) (gap_takeGap more)
    · by_cases space : isSpace c = true
      · have taken : takeGap false (c :: text) =
            (c :: (takeGap false text).1, (takeGap false text).2) := by
          simp [takeGap, hash, space]
        rw [taken]
        exact .blank space (gap_takeGap text)
      · have taken : takeGap false (c :: text) = ([], c :: text) := by
          simp [takeGap, hash, space]
        rw [taken]
        exact .nil
termination_by text.length
decreasing_by
  · exact Nat.lt_succ_of_le shorter
  · exact Nat.lt_succ_self _

theorem takeGap_iff {text gap rest : List Char} :
    takeGap false text = (gap, rest) ↔ text = gap ++ rest ∧ Gap gap rest ∧ Solid rest := by
  constructor
  · intro h
    have tiles := takeGap_append false text
    have isGap := gap_takeGap text
    have solid := solid_takeGap false text
    rw [h] at tiles isGap solid
    exact ⟨tiles.symm, isGap, solid⟩
  · rintro ⟨rfl, isGap, solid⟩
    exact takeGap_of_gap isGap solid

end FieldScript.Lexer
