import FieldScript.Text.Blank

/-!
# Paragraphs

A paragraph ends at a newline followed by one or more gap lines, which hold spaces, tabs and
carriage returns at most. All the gap lines that follow one another are passed at once, and the
newlines at the two ends of the input belong to no paragraph.
-/

namespace FieldScript.Text

def isGap (c : Char) : Bool :=
  c = ' ' || c = '\t' || c = '\r'

/-- The text after the gap lines that it begins with, if it begins with one; `passed` is the text
after those passed so far. -/
def afterGapLines (passed : Option (List Char)) : List Char → Option (List Char)
  | [] => passed
  | c :: rest =>
    if c = '\n' then afterGapLines (some rest) rest
    else if isGap c then afterGapLines passed rest
    else passed

theorem length_le_of_afterGapLines {text after : List Char} {passed : Option (List Char)} {n : Nat}
    (h : afterGapLines passed text = some after) (passed_le : ∀ r ∈ passed, r.length ≤ n)
    (text_le : text.length ≤ n) : after.length ≤ n := by
  fun_induction afterGapLines passed text <;> simp_all
  all_goals grind

/-- The text before the first paragraph end, and the text after the gap lines that follow it. -/
def cutAtGapLines : List Char → Option (List Char × List Char)
  | [] => none
  | c :: rest =>
    match if c = '\n' then afterGapLines none rest else none with
    | some after => some ([], after)
    | none => (cutAtGapLines rest).map fun (before, after) => (c :: before, after)

theorem length_lt_of_cutAtGapLines {text before after : List Char}
    (h : cutAtGapLines text = some (before, after)) : after.length < text.length := by
  induction text generalizing before after with
  | nil => simp [cutAtGapLines] at h
  | cons c rest ih =>
    rw [cutAtGapLines] at h
    split at h
    · next passed =>
      split at passed
      · simp only [Option.some.injEq, Prod.mk.injEq] at h
        obtain ⟨-, rfl⟩ := h
        have := length_le_of_afterGapLines passed (by simp) (Nat.le_refl _)
        simp
        omega
      · simp at passed
    · obtain ⟨⟨inner, after'⟩, found, pair_eq⟩ := Option.map_eq_some_iff.mp h
      simp only [Prod.mk.injEq] at pair_eq
      obtain ⟨-, rfl⟩ := pair_eq
      have := ih found
      simp
      omega

/-- The pieces between paragraph ends. -/
def splitAtGapLines (text : List Char) : List (List Char) :=
  match _found : cutAtGapLines text with
  | none => [text]
  | some (before, after) => before :: splitAtGapLines after
termination_by text.length
decreasing_by exact length_lt_of_cutAtGapLines _found

/-- The pieces of an input without the newlines at its ends. -/
def paragraphs (text : List Char) : List (List Char) :=
  splitAtGapLines (trimBoth (· = '\n') text)

end FieldScript.Text
