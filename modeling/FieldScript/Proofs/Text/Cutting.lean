import FieldScript.Proofs.Text.Rejoin
import FieldScript.Proofs.Text.Runs

/-!
# What cutting a text keeps

The pieces of a text and its words are told here without the way in which they are found: the pieces
lose nothing but separators, each of which was the first that came, and the words are all that is
not blank, each as long as it can be. Both determine what is cut.
-/

namespace FieldScript.Text

variable {sep text piece after : List Char} {pieces : List (List Char)}

theorem cutAt_eq_none_iff : cutAt sep text = none ↔ ¬ sep <:+: text := by
  induction text with
  | nil => cases sep <;> simp [cutAt]
  | cons c rest ih =>
    rw [cutAt, List.infix_cons_iff]
    split
    · next at_head => simp [List.isPrefixOf_iff_prefix.mp at_head]
    · next not_here =>
      rw [Option.map_eq_none_iff, ih]
      simp [mt List.isPrefixOf_iff_prefix.mpr not_here]

/-- The separator stands nowhere before the place where the text is cut. -/
theorem length_le_of_cutAt (h : cutAt sep text = some (piece, after)) {before behind : List Char}
    (stands : text = before ++ sep ++ behind) : piece.length ≤ before.length := by
  induction text generalizing piece before with
  | nil =>
    obtain ⟨rfl, -⟩ : piece = [] ∧ sep ++ after = [] := by simpa using (eq_of_cutAt h).symm
    exact Nat.zero_le _
  | cons c rest ih =>
    rw [cutAt] at h
    split at h
    · obtain ⟨rfl, -⟩ : [] = piece ∧ (c :: rest).drop sep.length = after := by simpa using h
      exact Nat.zero_le _
    · next not_here =>
      obtain ⟨⟨inner, after'⟩, found, pair_eq⟩ := Option.map_eq_some_iff.mp h
      obtain ⟨rfl, rfl⟩ : c :: inner = piece ∧ after' = after := by simpa using pair_eq
      cases before with
      | nil =>
        rw [List.nil_append] at stands
        exact absurd (List.isPrefixOf_iff_prefix.mpr ⟨behind, stands.symm⟩) not_here
      | cons d before =>
        have rest_eq : rest = before ++ sep ++ behind := (List.cons.inj stands).2
        exact Nat.succ_le_succ (ih found rest_eq)

/-- A text cut into pieces: joined they give it back, the separator stands in none of them, and
behind the pieces before, a piece ends at the first place where the separator stands. -/
structure IsCut (sep text : List Char) (pieces : List (List Char)) : Prop where
  any : pieces ≠ []
  joined : sep.intercalate pieces = text
  free : ∀ piece ∈ pieces, ¬ sep <:+: piece
  leftmost (earlier : List (List Char)) {piece : List Char} {later : List (List Char)} :
    pieces = earlier ++ piece :: later → later ≠ [] →
      ∀ before behind, sep.intercalate (piece :: later) = before ++ sep ++ behind →
        piece.length ≤ before.length

theorem isCut_splitAt (nonempty : sep ≠ []) (text : List Char) :
    IsCut sep text (splitAt sep text) := by
  refine ⟨splitAt_ne_nil sep text, ?_, ?_, ?_⟩
  · rw [← join_eq_intercalate, join_splitAt]
  · fun_induction splitAt sep text with
    | case1 _ empty => exact absurd (List.isEmpty_iff.mp empty) nonempty
    | case2 text _ uncut => simpa using cutAt_eq_none_iff.mp uncut
    | case3 text _ before after found ih =>
      have first_free := cutAt_eq_none_iff.mp (cutAt_piece_eq_none nonempty found)
      simpa [first_free] using ih
  · intro earlier piece later split any before behind stands
    fun_induction splitAt sep text generalizing earlier with
    | case1 _ empty => exact absurd (List.isEmpty_iff.mp empty) nonempty
    | case2 text _ uncut =>
      have length_eq := congrArg List.length split
      have later_pos := List.length_pos_iff.mpr any
      simp only [List.length_cons, List.length_nil, List.length_append] at length_eq
      omega
    | case3 text _ first after found ih =>
      cases earlier with
      | nil =>
        obtain ⟨rfl, rfl⟩ : first = piece ∧ splitAt sep after = later := by simpa using split
        rw [← splitAt_of_some nonempty found, ← join_eq_intercalate, join_splitAt] at stands
        exact length_le_of_cutAt found stands
      | cons _ earlier => exact ih earlier (List.cons.inj split).2

theorem IsCut.tail {second : List Char} {more : List (List Char)}
    (h : IsCut sep text (piece :: second :: more)) :
    IsCut sep (sep.intercalate (second :: more)) (second :: more) where
  any := List.cons_ne_nil _ _
  joined := rfl
  free other member := h.free other (List.mem_cons_of_mem piece member)
  leftmost earlier _ _ split := h.leftmost (piece :: earlier) (by rw [split]; rfl)

/-- A text is cut in one way only. -/
theorem isCut_iff (nonempty : sep ≠ []) : IsCut sep text pieces ↔ splitAt sep text = pieces := by
  refine ⟨fun h => ?_, fun h => h ▸ isCut_splitAt nonempty text⟩
  induction pieces generalizing text with
  | nil => exact absurd rfl h.any
  | cons piece later ih =>
    cases later with
    | nil =>
      obtain rfl : piece = text := by simpa [List.intercalate] using h.joined
      exact splitAt_of_none (cutAt_eq_none_iff.mpr (h.free piece List.mem_cons_self))
    | cons second more =>
      have text_eq : text = piece ++ sep ++ sep.intercalate (second :: more) := by
        rw [← h.joined, ← join_eq_intercalate, join_cons_cons, join_eq_intercalate]
      cases found : cutAt sep text with
      | none => exact absurd ⟨piece, _, text_eq.symm⟩ (cutAt_eq_none_iff.mp found)
      | some cut =>
        obtain ⟨first, after⟩ := cut
        have first_le := length_le_of_cutAt found text_eq
        have piece_le := h.leftmost [] rfl (List.cons_ne_nil second more) first after
          (h.joined.trans (eq_of_cutAt found))
        have same : first ++ (sep ++ after) =
            piece ++ (sep ++ sep.intercalate (second :: more)) := by
          rw [← List.append_assoc, ← List.append_assoc, ← eq_of_cutAt found, text_eq]
        obtain ⟨rfl, rest_eq⟩ := List.append_inj same (by omega)
        rw [splitAt_of_some nonempty found, List.append_cancel_left rest_eq, ih h.tail]

/-- The words of a text in order, with blanks around them and nothing else. A word ends where the
text does or at a blank, and begins where the text or what is behind the last word does, or behind a
blank. -/
inductive WordsOf : List Char → List (List Char) → Prop
  | none {gap : List Char} (blank : allBlank gap) : WordsOf gap []
  | word {gap word rest : List Char} {words : List (List Char)} (blank : allBlank gap)
      (nonempty : word ≠ []) (solid : ∀ c ∈ word, isBlank c = false)
      (stops : Stops (fun c => !isBlank c) rest) (others : WordsOf rest words) :
      WordsOf (gap ++ word ++ rest) (word :: words)

theorem words_append_blanks {gap : List Char} (blank : allBlank gap) (rest : List Char) :
    words (gap ++ rest) = words rest := by
  induction gap with
  | nil => rfl
  | cons c gap ih =>
    rw [allBlank, List.all_cons, Bool.and_eq_true] at blank
    rw [List.cons_append, words_cons_blank _ blank.1, ih blank.2]

theorem piecesBetween_of_stops {p : Char → Bool} {rest : List Char}
    (stops : Stops (fun c => !p c) rest) : ∃ others, piecesBetween p rest = [] :: others := by
  cases rest with
  | nil => exact ⟨[], rfl⟩
  | cons c rest =>
    have ends : p c := by simpa using stops c rfl
    exact ⟨piecesBetween p rest, by rw [piecesBetween, if_pos ends]⟩

theorem piecesBetween_append {p : Char → Bool} {run : List Char} (outside : ∀ c ∈ run, p c = false)
    (rest : List Char) :
    piecesBetween p (run ++ rest) = (piecesBetween p rest).modifyHead (run ++ ·) := by
  induction run with
  | nil => exact (congrFun List.modifyHead_id (piecesBetween p rest)).symm
  | cons c run ih =>
    have c_outside := outside c List.mem_cons_self
    rw [List.cons_append, piecesBetween, if_neg (by simp [c_outside]),
      ih fun d member => outside d (List.mem_cons_of_mem c member), List.modifyHead_modifyHead]
    rfl

/-- A stretch without a blank that is as long as it can be is the first word. -/
theorem words_append_stops {word rest : List Char} (nonempty : word ≠ [])
    (solid : ∀ c ∈ word, isBlank c = false) (stops : Stops (fun c => !isBlank c) rest) :
    words (word ++ rest) = word :: words rest := by
  obtain ⟨others, pieces_eq⟩ := piecesBetween_of_stops stops
  rw [words, words, piecesBetween_append solid, pieces_eq]
  simp [nonempty]

theorem wordsOf_words (text : List Char) : WordsOf text (words text) := by
  let gap := text.takeWhile isBlank
  have blank : allBlank gap := List.all_takeWhile
  have text_eq : gap ++ text.dropWhile isBlank = text := List.takeWhile_append_dropWhile
  cases solid_eq : text.dropWhile isBlank with
  | nil =>
    rw [solid_eq, List.append_nil] at text_eq
    have no_words := words_append_blanks blank []
    rw [List.append_nil, text_eq] at no_words
    rw [no_words, ← text_eq]
    exact .none blank
  | cons c tail =>
    let word := (c :: tail).takeWhile fun c => !isBlank c
    let rest := (c :: tail).dropWhile fun c => !isBlank c
    have c_solid : isBlank c = false := by
      have stops := stops_dropWhile isBlank text
      exact stops c (by simp [solid_eq])
    have nonempty : word ≠ [] := by simp [word, c_solid]
    have solid : ∀ d ∈ word, isBlank d = false := by
      intro d member
      simpa using List.all_eq_true.mp List.all_takeWhile d member
    have stops : Stops (fun c => !isBlank c) rest := stops_dropWhile _ _
    have split : gap ++ word ++ rest = text := by
      rw [List.append_assoc, List.takeWhile_append_dropWhile, ← solid_eq, text_eq]
    have shorter : rest.length < text.length := by
      have word_pos := List.length_pos_iff.mpr nonempty
      rw [← split, List.length_append, List.length_append]
      omega
    have words_eq : words text = word :: words rest := by
      rw [← split, List.append_assoc, words_append_blanks blank,
        words_append_stops nonempty solid stops]
    rw [words_eq, ← split]
    exact .word blank nonempty solid stops (wordsOf_words rest)
termination_by text.length

/-- A text has its words in one way only. -/
theorem wordsOf_iff : WordsOf text pieces ↔ words text = pieces := by
  refine ⟨fun h => ?_, fun h => h ▸ wordsOf_words text⟩
  induction h with
  | none blank => simpa using words_append_blanks blank []
  | word blank nonempty solid stops others ih =>
    rw [List.append_assoc, words_append_blanks blank, words_append_stops nonempty solid stops, ih]

end FieldScript.Text
