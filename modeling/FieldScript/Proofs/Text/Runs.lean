import FieldScript.Text.Blank

/-!
# Runs of characters

A run of characters of one class is taken up to the first character that is not in it. Runs at the
two ends of a text are cut off without loss of any other character.
-/

namespace FieldScript

/-- The text does not go on with a character of the class. -/
def Stops (p : Char → Bool) (text : List Char) : Prop := ∀ c ∈ text.head?, p c = false

theorem stops_dropWhile (p : Char → Bool) (text : List Char) : Stops p (text.dropWhile p) := by
  intro c head
  have not_in := List.head?_dropWhile_not p text
  rw [Option.mem_def.mp head] at not_in
  exact not_in

theorem takeWhile_of_stops {p : Char → Bool} {text : List Char} (h : Stops p text) :
    text.takeWhile p = [] := by
  cases text with
  | nil => rfl
  | cons c rest => rw [List.takeWhile_cons_of_neg (by simp [h c rfl])]

theorem takeWhile_append_stops {p : Char → Bool} {run rest : List Char} (all : ∀ c ∈ run, p c)
    (stops : Stops p rest) : (run ++ rest).takeWhile p = run := by
  rw [List.takeWhile_append_of_pos all, takeWhile_of_stops stops, List.append_nil]

theorem dropWhile_append_stops {p : Char → Bool} {run rest : List Char} (all : ∀ c ∈ run, p c)
    (stops : Stops p rest) : (run ++ rest).dropWhile p = rest := by
  have whole : run ++ (run ++ rest).dropWhile p = run ++ rest := by
    calc run ++ (run ++ rest).dropWhile p
        = (run ++ rest).takeWhile p ++ (run ++ rest).dropWhile p := by
          rw [takeWhile_append_stops all stops]
      _ = run ++ rest := List.takeWhile_append_dropWhile
  exact List.append_cancel_left whole

theorem mem_dropWhile_iff {p : Char → Bool} {c : Char} (outside : p c = false) (text : List Char) :
    c ∈ text.dropWhile p ↔ c ∈ text := by
  have not_taken : c ∉ text.takeWhile p := by
    intro taken
    rw [List.all_eq_true.mp List.all_takeWhile c taken] at outside
    contradiction
  conv => rhs; rw [← List.takeWhile_append_dropWhile (p := p) (l := text), List.mem_append]
  simp [not_taken]

namespace Text

theorem mem_trimBoth_iff {p : Char → Bool} {c : Char} (outside : p c = false) (text : List Char) :
    c ∈ trimBoth p text ↔ c ∈ text := by
  rw [trimBoth, List.mem_reverse, mem_dropWhile_iff outside, List.mem_reverse,
    mem_dropWhile_iff outside]

theorem trimBoth_of_none {p : Char → Bool} {text : List Char} (none : ∀ c ∈ text, p c = false) :
    trimBoth p text = text := by
  have kept (text : List Char) (none : ∀ c ∈ text, p c = false) : text.dropWhile p = text := by
    have stops : Stops p text := fun c head => none c (List.mem_of_mem_head? head)
    have no_run : ∀ c ∈ ([] : List Char), p c := by simp
    simpa using dropWhile_append_stops no_run stops
  have none_reverse : ∀ c ∈ text.reverse, p c = false :=
    fun c member => none c (List.mem_reverse.mp member)
  rw [trimBoth, kept text none, kept _ none_reverse, List.reverse_reverse]

end Text

end FieldScript
