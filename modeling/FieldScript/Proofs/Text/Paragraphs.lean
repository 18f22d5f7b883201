import FieldScript.Proofs.Text.Rejoin
import FieldScript.Proofs.Text.Runs
import FieldScript.Session

/-!
# Paragraphs and lines

A text cut at its gap lines is a list of lines cut at those blank lines that have a line on both
sides. So what is cut is the groups of lines that are not blank, but for the two ends of the text: a
first or a last line with blanks in it is not cut off, and stays with the group next to it.
-/

namespace FieldScript

namespace Text

/-- A line of spaces, tabs and carriage returns only, the empty one included. -/
def isBlankLine (line : List Char) : Bool := line.all isGap

def lines (text : List Char) : List (List Char) := text.splitOn '\n'

def unlines (ls : List (List Char)) : List Char := ['\n'].intercalate ls

/-- The longest groups of lines in a row that are not blank. -/
def lineGroups (ls : List (List Char)) : List (List (List Char)) :=
  (ls.splitOnP isBlankLine).filter fun group => !group.isEmpty

/-- The groups of lines of a text that are not blank, each joined by newlines, without those that
hold white space only. -/
def groupsOf (text : List Char) : List (List Char) :=
  ((lineGroups (lines text)).map unlines).filter fun group => !allBlank group

variable {text line before after : List Char} {ls front group back gap : List (List Char)}

/-- What stands in a piece stands in what was split, and is not split at. -/
theorem of_mem_splitOnP {α : Type} {p : α → Bool} {xs piece : List α} {x : α}
    (member : piece ∈ xs.splitOnP p) (inside : x ∈ piece) : x ∈ xs ∧ p x = false := by
  induction xs generalizing piece with
  | nil =>
    obtain rfl : piece = [] := List.mem_singleton.mp member
    exact absurd inside List.not_mem_nil
  | cons y xs ih =>
    rw [List.splitOnP_cons_eq_if_modifyHead] at member
    split at member
    · rcases List.mem_cons.mp member with rfl | later
      · exact absurd inside List.not_mem_nil
      · exact (ih later inside).imp_left (List.mem_cons_of_mem y)
    · next other =>
      obtain ⟨first, more, split⟩ := List.exists_cons_of_ne_nil (List.splitOnP_ne_nil p xs)
      rw [split, List.modifyHead_cons] at member
      rw [split] at ih
      rcases List.mem_cons.mp member with rfl | later
      · rcases List.mem_cons.mp inside with rfl | inside
        · exact ⟨List.mem_cons_self, by simpa using other⟩
        · exact (ih List.mem_cons_self inside).imp_left (List.mem_cons_of_mem y)
      · exact (ih (List.mem_cons_of_mem first later) inside).imp_left (List.mem_cons_of_mem y)

section Lines

theorem unlines_lines (text : List Char) : unlines (lines text) = text :=
  List.intercalate_splitOn '\n'

theorem lines_unlines (plain : ∀ line ∈ ls, '\n' ∉ line) (any : ls ≠ []) :
    lines (unlines ls) = ls := List.splitOn_intercalate '\n' plain any

@[simp] theorem unlines_singleton (line : List Char) : unlines [line] = line :=
  List.intercalate_singleton

theorem unlines_cons (line : List Char) (any : ls ≠ []) :
    unlines (line :: ls) = line ++ '\n' :: unlines ls := by
  rw [unlines, List.intercalate_cons_of_ne_nil any]
  simp [unlines]

theorem lines_append_newline (front back : List Char) :
    lines (front ++ '\n' :: back) = lines front ++ lines back :=
  List.splitOn_append_cons_self front back

theorem lines_ne_nil (text : List Char) : lines text ≠ [] := List.splitOn_ne_nil '\n' text

theorem newline_not_mem_of_mem_lines (member : line ∈ lines text) : '\n' ∉ line := by
  intro inside
  simpa using (of_mem_splitOnP member inside).2

end Lines

section Groups

theorem lineGroups_nil : lineGroups [] = [] := rfl

theorem lineGroups_append_blank (blank : isBlankLine line) (front back : List (List Char)) :
    lineGroups (front ++ line :: back) = lineGroups front ++ lineGroups back := by
  rw [lineGroups, List.splitOnP_append_cons front back blank, List.filter_append]
  rfl

theorem lineGroups_behind_blanks (blank : ∀ line ∈ gap, isBlankLine line) :
    lineGroups (gap ++ ls) = lineGroups ls := by
  induction gap with
  | nil => rfl
  | cons line gap ih =>
    rw [List.forall_mem_cons] at blank
    rw [List.cons_append]
    exact (lineGroups_append_blank blank.1 [] _).trans (ih blank.2)

theorem lineGroups_append_gap (blank : ∀ line ∈ gap, isBlankLine line) (any : gap ≠ [])
    (front back : List (List Char)) :
    lineGroups (front ++ gap ++ back) = lineGroups front ++ lineGroups back := by
  obtain ⟨line, gap, rfl⟩ := List.exists_cons_of_ne_nil any
  rw [List.forall_mem_cons] at blank
  rw [List.append_assoc, List.cons_append, lineGroups_append_blank blank.1,
    lineGroups_behind_blanks blank.2]

theorem lineGroups_solid (solid : ∀ line ∈ group, isBlankLine line = false) (any : group ≠ []) :
    lineGroups group = [group] := by
  rw [lineGroups, List.splitOnP_eq_singleton solid]
  simp [any]

end Groups

section Cut

/-- What is left of some lines when the blank ones in front go, each with a line behind it. -/
def skipBlankLines : List (List Char) → List (List Char)
  | [] => []
  | [line] => [line]
  | line :: second :: more =>
    if isBlankLine line then skipBlankLines (second :: more) else line :: second :: more

/-- The lines before the first blank line that has a line on both sides, and what is left behind it
and the blank lines after it. -/
def cutLines : List (List Char) → Option (List (List Char) × List (List Char))
  | [] | [_] | [_, _] => none
  | first :: second :: third :: more =>
    if isBlankLine second then some ([first], skipBlankLines (third :: more))
    else (cutLines (second :: third :: more)).map fun (before, after) => (first :: before, after)

theorem afterGapLines_line (plain : '\n' ∉ line) (passed : Option (List Char)) :
    afterGapLines passed line = passed := by
  induction line with
  | nil => rfl
  | cons c line ih =>
    rw [List.mem_cons, not_or] at plain
    rw [afterGapLines, if_neg (Ne.symm plain.1), ih plain.2]
    split <;> rfl

theorem afterGapLines_append (plain : '\n' ∉ line) (passed : Option (List Char))
    (text : List Char) :
    afterGapLines passed (line ++ '\n' :: text) =
      if isBlankLine line then afterGapLines (some text) text else passed := by
  induction line with
  | nil => rfl
  | cons c line ih =>
    rw [List.mem_cons, not_or] at plain
    have cons_eq : isBlankLine (c :: line) = (isGap c && isBlankLine line) := rfl
    rw [List.cons_append, afterGapLines, if_neg (Ne.symm plain.1), ih plain.2, cons_eq]
    cases isGap c <;> rfl

theorem afterGapLines_unlines (plain : ∀ line ∈ ls, '\n' ∉ line) (any : ls ≠ []) :
    afterGapLines (some (unlines ls)) (unlines ls) = some (unlines (skipBlankLines ls)) := by
  fun_induction skipBlankLines ls with
  | case1 => exact absurd rfl any
  | case2 line =>
    rw [List.forall_mem_singleton] at plain
    rw [unlines_singleton, afterGapLines_line plain]
  | case3 line second more blank ih =>
    rw [List.forall_mem_cons] at plain
    rw [unlines_cons line (by simp), afterGapLines_append plain.1, if_pos blank]
    exact ih plain.2 (by simp)
  | case4 line second more solid =>
    rw [List.forall_mem_cons] at plain
    rw [unlines_cons line (by simp), afterGapLines_append plain.1, if_neg solid]

theorem cutAtGapLines_line (plain : '\n' ∉ line) : cutAtGapLines line = none := by
  induction line with
  | nil => rfl
  | cons c line ih =>
    rw [List.mem_cons, not_or] at plain
    rw [cutAtGapLines, if_neg (Ne.symm plain.1), ih plain.2]
    rfl

theorem cutAtGapLines_append (plain : '\n' ∉ line) (text : List Char) :
    cutAtGapLines (line ++ '\n' :: text) =
      match afterGapLines none text with
      | some after => some (line, after)
      | none =>
        (cutAtGapLines text).map fun (before, after) => (line ++ '\n' :: before, after) := by
  induction line with
  | nil => rfl
  | cons c line ih =>
    rw [List.mem_cons, not_or] at plain
    rw [List.cons_append, cutAtGapLines, if_neg (Ne.symm plain.1), ih plain.2]
    cases afterGapLines none text with
    | some after => rfl
    | none => simp [Function.comp_def]

/-- How lines are cut: the part before has no blank line behind its first one, and the part after
does not begin with a blank line that has another line behind it. -/
structure IsLineCut (ls before after : List (List Char)) : Prop where
  split : ∃ gap, ls = before ++ gap ++ after ∧ gap ≠ [] ∧ ∀ line ∈ gap, isBlankLine line
  before_any : before ≠ []
  before_solid : ∀ line ∈ before.tail, isBlankLine line = false
  after_any : after ≠ []
  after_solid : ∀ line ∈ after.dropLast.head?, isBlankLine line = false

theorem skipBlankLines_spec (any : ls ≠ []) :
    (∃ gap, ls = gap ++ skipBlankLines ls ∧ ∀ line ∈ gap, isBlankLine line) ∧
      skipBlankLines ls ≠ [] ∧
      ∀ line ∈ (skipBlankLines ls).dropLast.head?, isBlankLine line = false := by
  fun_induction skipBlankLines ls with
  | case1 => exact absurd rfl any
  | case2 line => exact ⟨⟨[], by simp⟩, by simp, by simp⟩
  | case3 line second more blank ih =>
    obtain ⟨⟨gap, split, all_blank⟩, rest⟩ := ih (by simp)
    refine ⟨⟨line :: gap, ?_, ?_⟩, rest⟩
    · rw [List.cons_append, ← split]
    · exact List.forall_mem_cons.mpr ⟨blank, all_blank⟩
  | case4 line second more solid => exact ⟨⟨[], by simp⟩, by simp, by simpa using solid⟩

theorem isLineCut_of_cutLines {before after : List (List Char)}
    (h : cutLines ls = some (before, after)) : IsLineCut ls before after := by
  fun_induction cutLines ls generalizing before with
  | case1 | case2 | case3 => cases h
  | case4 first second third more blank =>
    cases h
    rcases skipBlankLines_spec (List.cons_ne_nil third more) with
      ⟨⟨gap, split, all_blank⟩, after_any, after_solid⟩
    refine ⟨⟨second :: gap, ?_, by simp, List.forall_mem_cons.mpr ⟨blank, all_blank⟩⟩, by simp,
      by simp, after_any, after_solid⟩
    simp [← split]
  | case5 first second third more solid ih =>
    obtain ⟨⟨inner, after'⟩, found, pair_eq⟩ := Option.map_eq_some_iff.mp h
    obtain ⟨rfl, rfl⟩ : first :: inner = before ∧ after' = after := by simpa using pair_eq
    rcases ih found with
      ⟨⟨gap, split, gap_any, all_blank⟩, inner_any, inner_solid, after_any, after_solid⟩
    refine ⟨⟨gap, by rw [split]; rfl, gap_any, all_blank⟩, by simp, ?_, after_any, after_solid⟩
    -- The inner lines begin with the second line, which is not blank.
    obtain ⟨head, tail, rfl⟩ := List.exists_cons_of_ne_nil inner_any
    obtain rfl : second = head := (List.cons.inj split).1
    exact List.forall_mem_cons.mpr ⟨by simpa using solid, inner_solid⟩

theorem solid_of_cutLines_eq_none (h : cutLines ls = none) :
    ∀ line ∈ ls.tail.dropLast, isBlankLine line = false := by
  fun_induction cutLines ls with
  | case1 | case2 | case3 => simp
  | case4 => cases h
  | case5 first second third more solid ih =>
    have inner := ih (Option.map_eq_none_iff.mp h)
    exact List.forall_mem_cons.mpr ⟨by simpa using solid, inner⟩

theorem cutAtGapLines_unlines (plain : ∀ line ∈ ls, '\n' ∉ line) (any : ls ≠ []) :
    cutAtGapLines (unlines ls) =
      (cutLines ls).map fun (before, after) => (unlines before, unlines after) := by
  fun_induction cutLines ls with
  | case1 => exact absurd rfl any
  | case2 line =>
    rw [unlines_singleton, cutAtGapLines_line (plain line (by simp))]
    rfl
  | case3 line second =>
    have second_plain := plain second (by simp)
    rw [unlines_cons line (by simp), unlines_singleton,
      cutAtGapLines_append (plain line (by simp)), afterGapLines_line second_plain,
      cutAtGapLines_line second_plain]
    rfl
  | case4 first second third more blank =>
    simp only [List.forall_mem_cons] at plain
    rw [unlines_cons first (by simp), unlines_cons second (by simp), cutAtGapLines_append plain.1,
      afterGapLines_append plain.2.1, if_pos blank,
      afterGapLines_unlines (List.forall_mem_cons.mpr plain.2.2) (by simp)]
    simp
  | case5 first second third more solid ih =>
    rw [List.forall_mem_cons] at plain
    have no_gap : afterGapLines none (unlines (second :: third :: more)) = none := by
      rw [unlines_cons second (by simp), afterGapLines_append (plain.2 second (by simp)),
        if_neg solid]
    rw [unlines_cons first (by simp), cutAtGapLines_append plain.1, no_gap, ih plain.2 (by simp)]
    cases found : cutLines (second :: third :: more) with
    | none => rfl
    | some cut =>
      have before_any := (isLineCut_of_cutLines found).before_any
      simp [unlines_cons first before_any]

theorem isLineCut_of_cutAtGapLines (h : cutAtGapLines text = some (before, after)) :
    IsLineCut (lines text) (lines before) (lines after) := by
  have plain (line : List Char) : line ∈ lines text → '\n' ∉ line :=
    newline_not_mem_of_mem_lines
  rw [← unlines_lines text, cutAtGapLines_unlines plain (lines_ne_nil text)] at h
  obtain ⟨⟨front, back⟩, found, pair_eq⟩ := Option.map_eq_some_iff.mp h
  obtain ⟨rfl, rfl⟩ : unlines front = before ∧ unlines back = after := by simpa using pair_eq
  have cut := isLineCut_of_cutLines found
  obtain ⟨gap, split, -, -⟩ := cut.split
  rw [lines_unlines (fun line member => plain line (by simp [split, member])) cut.before_any,
    lines_unlines (fun line member => plain line (by simp [split, member])) cut.after_any]
  exact cut

theorem solid_of_cutAtGapLines_eq_none (h : cutAtGapLines text = none) :
    ∀ line ∈ (lines text).tail.dropLast, isBlankLine line = false := by
  rw [← unlines_lines text, cutAtGapLines_unlines (fun line => newline_not_mem_of_mem_lines)
    (lines_ne_nil text), Option.map_eq_none_iff] at h
  exact solid_of_cutLines_eq_none h

end Cut

section Pieces

theorem groupsOf_splitAtGapLines (text : List Char) :
    (splitAtGapLines text).flatMap groupsOf = groupsOf text := by
  fun_induction splitAtGapLines text with
  | case1 text uncut => simp
  | case2 text before after found ih =>
    obtain ⟨gap, split, any, blank⟩ := (isLineCut_of_cutAtGapLines found).split
    rw [List.flatMap_cons, ih, groupsOf, groupsOf, groupsOf, split,
      lineGroups_append_gap blank any, List.map_append, List.filter_append]

theorem groupsOf_cons_newline (text : List Char) : groupsOf ('\n' :: text) = groupsOf text := by
  have lines_eq : lines ('\n' :: text) = [] ++ [] :: lines text := lines_append_newline [] text
  rw [groupsOf, groupsOf, lines_eq, lineGroups_append_blank rfl]
  rfl

theorem groupsOf_append_newline (text : List Char) :
    groupsOf (text ++ ['\n']) = groupsOf text := by
  have lines_eq : lines (text ++ ['\n']) = lines text ++ [] :: [] := lines_append_newline text []
  rw [groupsOf, groupsOf, lines_eq, lineGroups_append_blank rfl, lineGroups_nil, List.append_nil]

/-- The newlines at the ends of a text belong to no group. -/
theorem groupsOf_trimBoth (text : List Char) :
    groupsOf (trimBoth (· = '\n') text) = groupsOf text := by
  have front (text : List Char) : groupsOf (text.dropWhile (· = '\n')) = groupsOf text := by
    induction text with
    | nil => rfl
    | cons c text ih =>
      by_cases newline : c = '\n'
      · rw [List.dropWhile_cons_of_pos (by simpa using newline), ih, newline,
          groupsOf_cons_newline]
      · rw [List.dropWhile_cons_of_neg (by simpa using newline)]
  have back (text : List Char) :
      groupsOf (text.dropWhile (· = '\n')).reverse = groupsOf text.reverse := by
    induction text with
    | nil => rfl
    | cons c text ih =>
      by_cases newline : c = '\n'
      · rw [List.dropWhile_cons_of_pos (by simpa using newline), ih, newline, List.reverse_cons,
          groupsOf_append_newline]
      · rw [List.dropWhile_cons_of_neg (by simpa using newline)]
  rw [trimBoth, back, List.reverse_reverse, front]

/-- A group of lines that are not blank, with a blank line more at either end at most. -/
structure IsGroupWithEnds (ls front group back : List (List Char)) : Prop where
  split : ls = front ++ group ++ back
  front_length : front.length ≤ 1
  back_length : back.length ≤ 1
  front_blank : ∀ line ∈ front, isBlankLine line
  back_blank : ∀ line ∈ back, isBlankLine line
  solid : ∀ line ∈ group, isBlankLine line = false

theorem exists_isGroupWithEnds (any : ls ≠ [])
    (solid : ∀ line ∈ ls.tail.dropLast, isBlankLine line = false) :
    ∃ front group back, IsGroupWithEnds ls front group back := by
  -- The first and the last line go to an end where they are blank and to the group where not.
  have front_split (line : List Char) :
      [line] = [line].filter isBlankLine ++ [line].filter (!isBlankLine ·) := by
    cases blank : isBlankLine line <;> simp [blank]
  have back_split (line : List Char) :
      [line] = [line].filter (!isBlankLine ·) ++ [line].filter isBlankLine := by
    cases blank : isBlankLine line <;> simp [blank]
  have short (line : List Char) : ([line].filter isBlankLine).length ≤ 1 :=
    List.length_filter_le isBlankLine [line]
  obtain ⟨first, rest, rfl⟩ := List.exists_cons_of_ne_nil any
  rcases List.eq_nil_or_concat rest with rfl | ⟨inner, last, rfl⟩
  · exact ⟨_, _, [], by rw [List.append_nil]; exact front_split first, short first, by simp,
      by simp, by simp, by simp⟩
  · simp only [List.concat_eq_append, List.tail_cons, List.dropLast_concat] at solid ⊢
    refine ⟨_, [first].filter (!isBlankLine ·) ++ inner ++ [last].filter (!isBlankLine ·), _, ?_,
      short first, short last, by simp, by simp, ?_⟩
    · calc first :: (inner ++ [last])
          = ([first].filter isBlankLine ++ [first].filter (!isBlankLine ·)) ++ inner ++
              ([last].filter (!isBlankLine ·) ++ [last].filter isBlankLine) := by
            rw [← front_split, ← back_split]
            rfl
        _ = _ := by simp only [List.append_assoc]
    · intro line member
      simp only [List.mem_append, List.mem_filter, Bool.not_eq_true'] at member
      rcases member with (⟨-, solid_first⟩ | inside) | ⟨-, solid_last⟩
      · exact solid_first
      · exact solid line inside
      · exact solid_last

theorem isBlank_of_isGap {c : Char} (h : isGap c = true) : isBlank c = true := by
  simp only [isGap, Bool.or_eq_true, decide_eq_true_eq] at h
  rcases h with (rfl | rfl) | rfl <;> decide

theorem allBlank_of_isBlankLine (h : isBlankLine line = true) : allBlank line = true :=
  List.all_eq_true.mpr fun c member => isBlank_of_isGap (List.all_eq_true.mp h c member)

theorem allBlank_unlines (ls : List (List Char)) : allBlank (unlines ls) = ls.all allBlank := by
  induction ls with
  | nil => rfl
  | cons line ls ih =>
    cases ls with
    | nil => simp
    | cons second more =>
      have newline_blank : isBlank '\n' = true := by decide
      rw [unlines_cons line (by simp), List.all_cons, ← ih, allBlank, List.all_append,
        List.all_cons, newline_blank]
      rfl

theorem eq_nil_of_blank (blank : ∀ line ∈ gap, isBlankLine line)
    (solid : ∀ line ∈ gap, isBlankLine line = false) : gap = [] := by
  apply List.eq_nil_iff_forall_not_mem.mpr
  intro line member
  have line_blank := blank line member
  rw [solid line member] at line_blank
  contradiction

variable (h : IsGroupWithEnds (lines text) front group back)

include h

theorem IsGroupWithEnds.allBlank_eq : allBlank text = allBlank (unlines group) := by
  have front_blank : front.all allBlank = true :=
    List.all_eq_true.mpr fun line member => allBlank_of_isBlankLine (h.front_blank line member)
  have back_blank : back.all allBlank = true :=
    List.all_eq_true.mpr fun line member => allBlank_of_isBlankLine (h.back_blank line member)
  rw [← unlines_lines text, h.split, allBlank_unlines, allBlank_unlines, List.all_append,
    List.all_append, front_blank, back_blank, Bool.true_and, Bool.and_true]

/-- Such lines have their group only, or none where the text is blank. -/
theorem IsGroupWithEnds.groupsOf_eq :
    groupsOf text = if allBlank text then [] else [unlines group] := by
  have lineGroups_eq : lineGroups (lines text) = lineGroups group := by
    rw [h.split, List.append_assoc, lineGroups_behind_blanks h.front_blank]
    by_cases none : back = []
    · rw [none, List.append_nil]
    · have ending := lineGroups_append_gap h.back_blank none group []
      rwa [List.append_nil, lineGroups_nil, List.append_nil] at ending
  rw [groupsOf, lineGroups_eq, h.allBlank_eq]
  by_cases none : group = []
  · subst none
    rfl
  · rw [lineGroups_solid h.solid none]
    cases blank : allBlank (unlines group) <;> simp [blank]

theorem IsGroupWithEnds.eq_unlines (solid : ∀ line ∈ lines text, isBlankLine line = false) :
    unlines group = text := by
  have front_nil := eq_nil_of_blank h.front_blank fun line member =>
    solid line (by simp [h.split, member])
  have back_nil := eq_nil_of_blank h.back_blank fun line member =>
    solid line (by simp [h.split, member])
  have split := h.split
  rw [front_nil, back_nil, List.nil_append, List.append_nil] at split
  rw [← split, unlines_lines]

omit h in
theorem exists_isGroupWithEnds_of_mem {piece : List Char} (member : piece ∈ splitAtGapLines text) :
    ∃ front group back, IsGroupWithEnds (lines piece) front group back := by
  fun_induction splitAtGapLines text with
  | case1 text uncut =>
    obtain rfl : piece = text := List.mem_singleton.mp member
    exact exists_isGroupWithEnds (lines_ne_nil piece) (solid_of_cutAtGapLines_eq_none uncut)
  | case2 text before after found ih =>
    rcases List.mem_cons.mp member with rfl | later
    · have cut := isLineCut_of_cutAtGapLines found
      exact exists_isGroupWithEnds cut.before_any fun line inside =>
        cut.before_solid line ((List.dropLast_sublist _).subset inside)
    · exact ih later

end Pieces

section Records

theorem flatMap_filter_of_nil {α β : Type} {f : α → List β} {keep : α → Bool} {xs : List α}
    (rejected : ∀ x ∈ xs, keep x = false → f x = []) :
    (xs.filter keep).flatMap f = xs.flatMap f := by
  induction xs with
  | nil => rfl
  | cons x xs ih =>
    rw [List.forall_mem_cons] at rejected
    cases kept : keep x with
    | true =>
      rw [List.filter_cons_of_pos kept, List.flatMap_cons, List.flatMap_cons, ih rejected.2]
    | false =>
      rw [List.filter_cons_of_neg (by simp [kept]), List.flatMap_cons, rejected.1 kept,
        ih rejected.2]
      rfl

theorem flatMap_eq_self {α : Type} {f : α → List α} {xs : List α} (own : ∀ x ∈ xs, f x = [x]) :
    xs.flatMap f = xs := by
  induction xs with
  | nil => rfl
  | cons x xs ih =>
    rw [List.forall_mem_cons] at own
    rw [List.flatMap_cons, own.1, ih own.2]
    rfl

theorem forall_mem_of_ends {α : Type} {p : α → Prop} {xs : List α} (first : ∀ x ∈ xs.head?, p x)
    (inner : ∀ x ∈ xs.tail.dropLast, p x) (last : ∀ x ∈ xs.getLast?, p x) : ∀ x ∈ xs, p x := by
  cases xs with
  | nil => simp
  | cons x rest =>
    refine List.forall_mem_cons.mpr ⟨first x rfl, ?_⟩
    rcases List.eq_nil_or_concat rest with rfl | ⟨middle, y, rfl⟩
    · simp
    · simp only [List.concat_eq_append, List.tail_cons, List.dropLast_concat] at inner last ⊢
      intro z member
      rcases List.mem_append.mp member with inside | inside
      · exact inner z inside
      · rw [List.mem_singleton.mp inside]
        exact last y (by rw [← List.cons_append, List.getLast?_concat]; rfl)

def solidParagraphs (text : List Char) : List (List Char) :=
  (paragraphs text).filter fun piece => !allBlank piece

theorem exists_group_of_mem {piece : List Char} (member : piece ∈ solidParagraphs text) :
    ∃ front group back, IsGroupWithEnds (lines piece) front group back ∧
      groupsOf piece = [unlines group] := by
  obtain ⟨inside, solid⟩ := List.mem_filter.mp member
  obtain ⟨front, group, back, h⟩ := exists_isGroupWithEnds_of_mem inside
  refine ⟨front, group, back, h, ?_⟩
  rw [h.groupsOf_eq, if_neg (by simpa using solid)]

/-- The groups of a text are those of its pieces. -/
theorem flatMap_groupsOf (text : List Char) :
    (solidParagraphs text).flatMap groupsOf = groupsOf text := by
  have blank_groups : ∀ piece ∈ paragraphs text, allBlank piece = true → groupsOf piece = [] := by
    intro piece member blank
    obtain ⟨front, group, back, h⟩ := exists_isGroupWithEnds_of_mem member
    rw [h.groupsOf_eq, if_pos blank]
  rw [← groupsOf_trimBoth text, ← groupsOf_splitAtGapLines]
  exact flatMap_filter_of_nil fun piece member blank =>
    blank_groups piece member (by simpa using blank)

theorem solid_of_mem_groupsOf {group : List Char} (member : group ∈ groupsOf text) :
    ∀ line ∈ lines group, isBlankLine line = false := by
  obtain ⟨ls, inside, rfl⟩ := List.mem_map.mp (List.mem_filter.mp member).1
  obtain ⟨piece, any⟩ := List.mem_filter.mp inside
  have plain : ∀ line ∈ ls, '\n' ∉ line := fun line here =>
    newline_not_mem_of_mem_lines (of_mem_splitOnP piece here).1
  rw [lines_unlines plain (by simpa using any)]
  exact fun line here => (of_mem_splitOnP piece here).2

theorem solidParagraphs_eq_iff : solidParagraphs text = groupsOf text ↔
    ∀ piece ∈ solidParagraphs text, ∀ line ∈ lines piece, isBlankLine line = false := by
  constructor
  · intro same piece member
    exact solid_of_mem_groupsOf (same ▸ member)
  · intro solid
    have own_group : ∀ piece ∈ solidParagraphs text, groupsOf piece = [piece] := by
      intro piece member
      obtain ⟨front, group, back, h, groups_eq⟩ := exists_group_of_mem member
      rw [groups_eq, h.eq_unlines (solid piece member)]
    rw [← flatMap_groupsOf, flatMap_eq_self own_group]

theorem IsLineCut.first_after {before after : List (List Char)} (cut : IsLineCut ls before after)
    (last : ∀ line ∈ after.getLast?, isBlankLine line = false) :
    ∀ line ∈ after.head?, isBlankLine line = false := by
  match after, cut.after_any, cut.after_solid with
  | [line], _, _ => simpa using last
  | line :: second :: more, _, solid => simpa using solid

/-- Where neither end of a text is a blank line, no piece has one. -/
theorem solid_of_ends (first : ∀ line ∈ (lines text).head?, isBlankLine line = false)
    (last : ∀ line ∈ (lines text).getLast?, isBlankLine line = false) :
    ∀ piece ∈ splitAtGapLines text, ∀ line ∈ lines piece, isBlankLine line = false := by
  fun_induction splitAtGapLines text with
  | case1 text uncut =>
    rw [List.forall_mem_singleton]
    exact forall_mem_of_ends first (solid_of_cutAtGapLines_eq_none uncut) last
  | case2 text before after found ih =>
    have cut := isLineCut_of_cutAtGapLines found
    obtain ⟨gap, split, -, -⟩ := cut.split
    refine List.forall_mem_cons.mpr ⟨?_, ?_⟩
    · obtain ⟨head, tail, before_eq⟩ := List.exists_cons_of_ne_nil cut.before_any
      have before_solid := cut.before_solid
      rw [before_eq] at before_solid ⊢
      exact List.forall_mem_cons.mpr ⟨first head (by simp [split, before_eq]), before_solid⟩
    · have last_after : ∀ line ∈ (lines after).getLast?, isBlankLine line = false := by
        intro line member
        apply last
        rw [split, List.getLast?_append, Option.mem_def.mp member]
        rfl
      exact ih (cut.first_after last_after) last_after

end Records

end Text

namespace Record

def groups (input : String) : List String := (Text.groupsOf input.toList).map String.ofList

theorem split_empty (input : String) :
    split "" input = (Text.solidParagraphs input.toList).map String.ofList := by
  rw [split, pieces, if_pos rfl, Text.solidParagraphs]

theorem flatMap_groups (input : String) : (split "" input).flatMap groups = groups input := by
  rw [split_empty, groups, ← Text.flatMap_groupsOf, List.flatMap_map, List.map_flatMap]
  simp only [groups, String.toList_ofList]

theorem exists_group_of_mem {input record : String} (member : record ∈ split "" input) :
    ∃ front group back, Text.IsGroupWithEnds (Text.lines record.toList) front group back ∧
      groups record = [String.ofList (Text.unlines group)] := by
  rw [split_empty] at member
  obtain ⟨piece, inside, rfl⟩ := List.mem_map.mp member
  obtain ⟨front, group, back, h, groups_eq⟩ := Text.exists_group_of_mem inside
  rw [groups, String.toList_ofList, groups_eq]
  exact ⟨front, group, back, h, rfl⟩

theorem split_eq_groups_iff (input : String) : split "" input = groups input ↔
    ∀ record ∈ split "" input, ∀ line ∈ Text.lines record.toList,
      Text.isBlankLine line = false := by
  have ofList_inj : ∀ a b : List Char, String.ofList a = String.ofList b → a = b :=
    fun _ _ => String.ofList_inj.mp
  rw [split_empty, groups, List.map_inj_right ofList_inj, Text.solidParagraphs_eq_iff,
    List.forall_mem_map]
  simp only [String.toList_ofList]

end Record

/-- Where `RS` is the empty text, the records hold the groups of lines of the input that are not
blank, in order and one each, with a blank line more at either end at most. So they are these groups
exactly where no record has a blank line, and that is so where the input begins and ends with a line
that is not blank, newlines at its ends aside. -/
theorem Program.run_paragraphs (program : Program) (fuel : Nat) (input : String) (world : World) :
    let records := Record.split "" input
    let ends := Text.lines (Text.trimBoth (· = '\n') input.toList)
    (∀ start, runEach (Rule.act fuel) (program.filter Rule.isAtStart) world = (.normal, start) →
      start.store.rs.display = "" →
      program.run fuel input world = (runEach (program.runRecord fuel) records start).andThen
        (runEach (Rule.act fuel) (program.filter Rule.isAtEnd))) ∧
    Record.groups input = records.flatMap Record.groups ∧
    (∀ record ∈ records, ∃ front group back,
      Text.IsGroupWithEnds (Text.lines record.toList) front group back ∧
      Record.groups record = [String.ofList (Text.unlines group)]) ∧
    (records = Record.groups input ↔
      ∀ record ∈ records, ∀ line ∈ Text.lines record.toList, Text.isBlankLine line = false) ∧
    ((∀ line ∈ ends.head?, Text.isBlankLine line = false) →
      (∀ line ∈ ends.getLast?, Text.isBlankLine line = false) →
      records = Record.groups input) := by
  intro records ends
  refine ⟨?_, (Record.flatMap_groups input).symm, fun record => Record.exists_group_of_mem,
    Record.split_eq_groups_iff input, ?_⟩
  · intro start start_eq empty
    rw [run, start_eq, Outcome.andThen, empty]
  · intro first last
    apply (Record.split_eq_groups_iff input).mpr
    intro record member
    rw [Record.split_empty] at member
    obtain ⟨piece, inside, rfl⟩ := List.mem_map.mp member
    rw [String.toList_ofList]
    exact Text.solid_of_ends first last piece (List.mem_filter.mp inside).1

/-- The records of this input are not its groups: the same blank line is cut off between the two
records and not behind the last one. -/
theorem run_paragraphs_blank_end :
    let input := "a\r\n\r\nb\r\n\r\n"
    let session := Session.ofScript "BEGIN \x7b RS = \"\" \x7d \x7b print $0 \x7d"
    session.toOption.map (fun session => (session.run 1 input none).writes) =
      some ["a\r\n", "b\r\n\r\n"] ∧
    Record.split "" input = ["a\r", "b\r\n\r"] ∧ Record.groups input = ["a\r", "b\r"] ∧
    Record.split "" input ≠ Record.groups input := by
  decide +kernel

end FieldScript
