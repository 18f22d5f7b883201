import FieldScript.Record

/-!
# Joining some of the pieces

When some of the pieces of a text are joined again, the text that results has these pieces and no
others. So an input keeps its records when the blank pieces are left out of it. A separator of one
character cannot overlap itself, so an input cut at one has the records of its two parts.
-/

namespace FieldScript

namespace Text

variable {sep text piece after : List Char}

theorem cutAt_self (sep : List Char) : cutAt sep sep = some ([], []) := by
  cases sep <;> simp [cutAt]

/-- Where the separator stands first does not depend on what is added at the end. -/
theorem cutAt_append (h : cutAt sep text = some (piece, after)) (more : List Char) :
    cutAt sep (text ++ more) = some (piece, after ++ more) := by
  induction text generalizing piece after with
  | nil =>
    rw [cutAt] at h
    split at h
    · next empty =>
      obtain ⟨rfl, rfl⟩ : [] = piece ∧ [] = after := by simpa using h
      rw [List.isEmpty_iff.mp empty]
      cases more <;> simp [cutAt]
    · simp at h
  | cons c rest ih =>
    rw [cutAt] at h
    rw [List.cons_append, cutAt]
    split at h
    · next at_head =>
      have is_start : sep <+: c :: rest := List.isPrefixOf_iff_prefix.mp at_head
      obtain ⟨rfl, rfl⟩ : [] = piece ∧ (c :: rest).drop sep.length = after := by simpa using h
      rw [← List.cons_append,
        if_pos (List.isPrefixOf_iff_prefix.mpr (is_start.trans (List.prefix_append _ _))),
        List.drop_append_of_le_length is_start.length_le]
    · next later =>
      obtain ⟨⟨inner, after'⟩, found, pair_eq⟩ := Option.map_eq_some_iff.mp h
      obtain ⟨rfl, rfl⟩ : c :: inner = piece ∧ after' = after := by simpa using pair_eq
      -- The separator is found in `rest`, so it is too short to reach into what is added.
      have fits : sep.length ≤ (c :: rest).length := by
        simp [eq_of_cutAt found]
        omega
      have still_later : ¬ sep.isPrefixOf (c :: (rest ++ more)) := by
        intro at_head
        have is_start := List.isPrefixOf_iff_prefix.mp at_head
        exact later (List.isPrefixOf_iff_prefix.mpr
          (List.prefix_of_prefix_length_le is_start (List.prefix_append (c :: rest) more) fits))
      rw [if_neg still_later, ih found]
      rfl

theorem cutAt_piece_sep (h : cutAt sep text = some (piece, after)) :
    cutAt sep (piece ++ sep) = some (piece, []) := by
  induction text generalizing piece after with
  | nil =>
    obtain rfl : [] = piece := by
      rw [cutAt] at h
      split at h <;> simp_all
    exact cutAt_self sep
  | cons c rest ih =>
    rw [cutAt] at h
    split at h
    · obtain ⟨rfl, -⟩ : [] = piece ∧ (c :: rest).drop sep.length = after := by simpa using h
      exact cutAt_self sep
    · next later =>
      obtain ⟨⟨inner, after'⟩, found, pair_eq⟩ := Option.map_eq_some_iff.mp h
      obtain ⟨rfl, rfl⟩ : c :: inner = piece ∧ after' = after := by simpa using pair_eq
      have still_later : ¬ sep.isPrefixOf (c :: (inner ++ sep)) := by
        intro at_head
        apply later
        rw [eq_of_cutAt found]
        rw [List.isPrefixOf_iff_prefix] at at_head ⊢
        exact at_head.trans (List.prefix_append (c :: (inner ++ sep)) after')
      rw [List.cons_append, cutAt, if_neg still_later, ih found]
      rfl

theorem cutAt_piece (h : cutAt sep text = some (piece, after)) (other : List Char) :
    cutAt sep (piece ++ sep ++ other) = some (piece, other) :=
  cutAt_append (cutAt_piece_sep h) other

theorem cutAt_piece_eq_none (nonempty : sep ≠ []) (h : cutAt sep text = some (piece, after)) :
    cutAt sep piece = none := by
  cases inside : cutAt sep piece with
  | none => rfl
  | some cut =>
    have earlier := cutAt_append inside sep
    rw [cutAt_piece_sep h] at earlier
    have no_room : cut.2 ++ sep = [] := (Prod.mk.inj (Option.some.inj earlier)).2.symm
    exact absurd (List.append_eq_nil_iff.mp no_room).2 nonempty

theorem splitAt_of_none (h : cutAt sep text = none) : splitAt sep text = [text] := by
  rw [splitAt]
  split
  · rfl
  · split <;> simp_all

theorem splitAt_of_some (nonempty : sep ≠ []) (h : cutAt sep text = some (piece, after)) :
    splitAt sep text = piece :: splitAt sep after := by
  rw [splitAt, if_neg (by simpa using nonempty)]
  split <;> simp_all

theorem join_cons_cons (sep piece second : List Char) (more : List (List Char)) :
    join sep (piece :: second :: more) = piece ++ sep ++ join sep (second :: more) := rfl

/-- Some of the pieces of a text, joined, are split into just these. -/
theorem splitAt_join (nonempty : sep ≠ []) {pieces : List (List Char)}
    (h : pieces.Sublist (splitAt sep text)) (any : pieces ≠ []) :
    splitAt sep (join sep pieces) = pieces := by
  fun_induction splitAt sep text generalizing pieces with
  | case1 text empty => exact absurd (List.isEmpty_iff.mp empty) nonempty
  | case2 text _ uncut =>
    rcases List.sublist_cons_iff.mp h with later | ⟨rest, rfl, later⟩
    · exact absurd (List.sublist_nil.mp later) any
    · rw [List.sublist_nil.mp later]
      exact splitAt_of_none uncut
  | case3 text _ before after found ih =>
    rcases List.sublist_cons_iff.mp h with later | ⟨rest, rfl, later⟩
    · exact ih later any
    · cases rest with
      | nil => exact splitAt_of_none (cutAt_piece_eq_none nonempty found)
      | cons second rest =>
        rw [join_cons_cons, splitAt_of_some nonempty (cutAt_piece found _), ih later (by simp)]

/-- Pieces that a filter keeps are kept when only they are joined. -/
theorem filter_splitAt_join (nonempty : sep ≠ []) {keep : List Char → Bool}
    (drops_nil : keep [] = false) (text : List Char) :
    (splitAt sep (join sep ((splitAt sep text).filter keep))).filter keep =
      (splitAt sep text).filter keep := by
  by_cases any : (splitAt sep text).filter keep = []
  · have uncut : cutAt sep [] = none := by simp [cutAt, nonempty]
    rw [any, join, splitAt_of_none uncut]
    simp [drops_nil]
  · rw [splitAt_join nonempty List.filter_sublist any]
    simp

/-- A separator of one character that stands nowhere before is taken where it stands first. -/
theorem cutAt_before_char {c : Char} (uncut : cutAt [c] text = none) (after : List Char) :
    cutAt [c] (text ++ c :: after) = some (text, after) := by
  induction text with
  | nil => simp [cutAt]
  | cons d rest ih =>
    rw [cutAt] at uncut
    split at uncut
    · simp at uncut
    · next not_here =>
      have other : ¬ [c].isPrefixOf (d :: (rest ++ c :: after)) := by
        simpa [List.isPrefixOf] using not_here
      rw [List.cons_append, cutAt, if_neg other, ih (Option.map_eq_none_iff.mp uncut)]
      rfl

theorem splitAt_append_char (c : Char) (text after : List Char) :
    splitAt [c] (text ++ c :: after) = splitAt [c] text ++ splitAt [c] after := by
  have nonempty : [c] ≠ [] := List.cons_ne_nil c []
  fun_induction splitAt [c] text with
  | case1 _ empty => exact absurd (List.isEmpty_iff.mp empty) nonempty
  | case2 text _ uncut => rw [splitAt_of_some nonempty (cutAt_before_char uncut after)]; rfl
  | case3 text _ before rest found ih =>
    rw [splitAt_of_some nonempty (cutAt_append found _), ih, List.cons_append]

theorem join_eq_intercalate (sep : List Char) :
    (pieces : List (List Char)) → join sep pieces = sep.intercalate pieces
  | [] => rfl
  | [piece] => by simp [join, List.intercalate]
  | piece :: second :: more => by
    rw [join_cons_cons, join_eq_intercalate sep (second :: more)]
    simp [List.intercalate]

end Text

namespace Record

theorem split_intercalate {separator : String} (nonempty : separator ≠ "") (input : String) :
    split separator (separator.intercalate (split separator input)) = split separator input := by
  have chars_nonempty : separator.toList ≠ [] := by simpa using nonempty
  have joined : (separator.intercalate (split separator input)).toList =
      Text.join separator.toList ((Text.splitAt separator.toList input.toList).filter fun piece =>
        !Text.allBlank piece) := by
    rw [String.toList_intercalate, Text.join_eq_intercalate, split, pieces, if_neg nonempty,
      List.map_map]
    simp [Function.comp_def]
  rw [split, pieces, if_neg nonempty, joined, Text.filter_splitAt_join chars_nonempty rfl, split,
    pieces, if_neg nonempty]

/-- The records of two inputs with a separator of one character between them are those of both. -/
theorem split_append_char (c : Char) (a b : String) :
    split (String.singleton c) (a ++ String.singleton c ++ b) =
      split (String.singleton c) a ++ split (String.singleton c) b := by
  have nonempty : String.singleton c ≠ "" := by
    intro empty
    simpa using congrArg String.toList empty
  have pieces_eq (input : String) :
      pieces (String.singleton c) input = Text.splitAt [c] input.toList := by
    rw [pieces, if_neg nonempty, String.toList_singleton]
  have whole : (a ++ String.singleton c ++ b).toList = a.toList ++ c :: b.toList := by simp
  rw [split, split, split, pieces_eq, pieces_eq, pieces_eq, whole, Text.splitAt_append_char,
    List.filter_append, List.map_append]

end Record

end FieldScript
