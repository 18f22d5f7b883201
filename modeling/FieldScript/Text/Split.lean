/-!
# Splitting at a separator

A separator is taken at the leftmost place where it stands, then again in what follows, so two
occurrences that overlap count once. Joining the pieces with the separator gives the text back.
-/

namespace FieldScript.Text

/-- The text before and after the leftmost place where the separator stands. -/
def cutAt (sep : List Char) : List Char → Option (List Char × List Char)
  | [] => if sep.isEmpty then some ([], []) else none
  | c :: rest =>
    if sep.isPrefixOf (c :: rest) then some ([], (c :: rest).drop sep.length)
    else (cutAt sep rest).map fun (before, after) => (c :: before, after)

theorem eq_of_cutAt {sep text before after : List Char}
    (h : cutAt sep text = some (before, after)) : text = before ++ sep ++ after := by
  induction text generalizing before after with
  | nil => simp_all [cutAt]
  | cons c rest ih =>
    rw [cutAt] at h
    split at h
    · next at_head =>
      obtain ⟨tail, tail_eq⟩ := List.isPrefixOf_iff_prefix.mp at_head
      simp only [Option.some.injEq, Prod.mk.injEq] at h
      obtain ⟨rfl, rfl⟩ := h
      rw [← tail_eq]
      simp
    · obtain ⟨⟨inner, after'⟩, found, pair_eq⟩ := Option.map_eq_some_iff.mp h
      simp only [Prod.mk.injEq] at pair_eq
      obtain ⟨rfl, rfl⟩ := pair_eq
      simp [ih found]

/-- The pieces between the places where the separator stands; an empty separator leaves the text
whole. -/
def splitAt (sep text : List Char) : List (List Char) :=
  if sep.isEmpty then [text]
  else
    match _found : cutAt sep text with
    | none => [text]
    | some (before, after) => before :: splitAt sep after
termination_by text.length
decreasing_by
  have length_eq := congrArg List.length (eq_of_cutAt _found)
  have sep_pos : 0 < sep.length := List.length_pos_iff.mpr (by simp_all)
  simp only [List.length_append] at length_eq
  omega

def join (sep : List Char) : List (List Char) → List Char
  | [] => []
  | [piece] => piece
  | piece :: more => piece ++ sep ++ join sep more

theorem splitAt_ne_nil (sep text : List Char) : splitAt sep text ≠ [] := by
  rw [splitAt]
  split
  · simp
  · split <;> simp

theorem join_splitAt (sep text : List Char) : join sep (splitAt sep text) = text := by
  fun_induction splitAt sep text with
  | case1 => rfl
  | case2 => rfl
  | case3 text _ before after found ih =>
    obtain ⟨piece, more, pieces_eq⟩ := List.exists_cons_of_ne_nil (splitAt_ne_nil sep after)
    rw [pieces_eq] at ih ⊢
    rw [join, ih, eq_of_cutAt found]
    simp

end FieldScript.Text
