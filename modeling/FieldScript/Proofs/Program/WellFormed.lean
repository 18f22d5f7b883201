import FieldScript.Proofs.Program.Run

/-!
# Well-formed programs

A program has a rule, what is printed is not nothing, a branch is one statement at most, and no
`else` stands behind a branch that could take it for itself. The state of the reader keeps this of
all that it has finished, so every program that is read is well formed.
-/

namespace FieldScript

/-- Whether a statement ends in an `if` that could still take an `else`. -/
def Stmt.endsOpen : Stmt → Bool
  | .ifElse _ _ none _ => true
  | .ifElse _ _ (some [s]) _ => s.endsOpen
  | _ => false

def branchEndsOpen : List Stmt → Bool
  | [s] => s.endsOpen
  | _ => false

mutual

def Stmt.WellFormed : Stmt → Prop
  | .print args _ => args ≠ []
  | .simple _ => True
  | .ifElse _ thenBranch elseBranch _ =>
    AllWellFormed thenBranch ∧ thenBranch.length ≤ 1 ∧ ElseWellFormed elseBranch ∧
      (elseBranch.isSome → branchEndsOpen thenBranch = false)
  | .forLoop _ body _ => AllWellFormed body
  | .breakLoop _ => True
  | .block body _ => AllWellFormed body

def ElseWellFormed : Option (List Stmt) → Prop
  | none => True
  | some branch => AllWellFormed branch ∧ branch.length ≤ 1

def AllWellFormed : List Stmt → Prop
  | [] => True
  | s :: rest => s.WellFormed ∧ AllWellFormed rest

end

/-- A program has a rule, and all its statements are well formed. What a trigger, a part of a loop
header or the index of a field can be is in their types. -/
def Program.WellFormed (program : Program) : Prop :=
  program ≠ [] ∧ ∀ rule ∈ program, AllWellFormed rule.body

theorem allWellFormed_append {a b : List Stmt} :
    AllWellFormed (a ++ b) ↔ AllWellFormed a ∧ AllWellFormed b := by
  induction a with
  | nil => simp [AllWellFormed]
  | cons s rest ih => simp [AllWellFormed, ih, and_assoc]

theorem endsOpen_ifElse_some (condition : Expr) (thenBranch branch : List Stmt)
    (place : Location) :
    (Stmt.ifElse condition thenBranch (some branch) place).endsOpen = branchEndsOpen branch := by
  match branch with
  | [] => rfl
  | [s] => rfl
  | s :: t :: rest => rfl

theorem allWellFormed_bodyOf {s : Option Stmt} (h : AllWellFormed s.toList) :
    AllWellFormed (Reader.bodyOf s) := by
  cases s with
  | none => trivial
  | some s =>
    cases s with
    | block body place => exact h.1
    | _ => exact h

namespace Reader

def RulesWellFormed (rules : List Rule) : Prop := ∀ rule ∈ rules, AllWellFormed rule.body

/-- What surrounds the statement being read is well formed, and a branch that has got its `else`
does not end in an `if` that could take it. -/
def Context.WellFormed : Context → Prop
  | rule earlier _ _ before => RulesWellFormed earlier ∧ AllWellFormed before
  | block _ before outer => AllWellFormed before ∧ outer.WellFormed
  | thenBranch _ _ outer => outer.WellFormed
  | elseBranch _ branch _ outer =>
    AllWellFormed branch ∧ branch.length ≤ 1 ∧ branchEndsOpen branch = false ∧ outer.WellFormed
  | forBody _ _ outer => outer.WellFormed

def Slot.WellFormed : Slot → Prop
  | statement context => context.WellFormed
  | forInit _ context => context.WellFormed
  | forUpdate _ _ _ context => context.WellFormed

def Purpose.WellFormed : Purpose → Prop
  | pattern earlier _ => RulesWellFormed earlier
  | printArg _ _ context => context.WellFormed
  | assign _ _ _ slot => slot.WellFormed
  | ifCondition _ context => context.WellFormed
  | forCondition _ _ context => context.WellFormed

/-- A statement that waits for one more token does not end in an open `if`: such an `if` is finished
only by the token behind it. -/
def Mode.WellFormed : Mode → Prop
  | rules earlier => RulesWellFormed earlier
  | expect _ next => next.WellFormed
  | statement context => context.WellFormed
  | finished s context =>
    AllWellFormed s.toList ∧ branchEndsOpen s.toList = false ∧ context.WellFormed
  | printed args _ context => args ≠ [] ∧ context.WellFormed
  | ifCondition _ context => context.WellFormed
  | stepped _ _ slot => slot.WellFormed
  | named _ _ slot => slot.WellFormed
  | forInit _ context => context.WellFormed
  | forCondition _ _ context => context.WellFormed
  | forUpdate _ _ _ context => context.WellFormed

def State.WellFormed : State → Prop
  | between mode => mode.WellFormed
  | inExpr _ purpose => purpose.WellFormed

variable {context : Context} {slot : Slot} {purpose : Purpose} {token : Token} {next : State}

theorem Slot.wellFormed_filled (s : Simple) (h : slot.WellFormed) : (slot.filled s).WellFormed := by
  cases slot with
  | statement context => exact ⟨⟨trivial, trivial⟩, rfl, h⟩
  | forInit place context => exact h
  | forUpdate init condition place context => exact h

theorem Purpose.wellFormed_served (e : Expr) (h : purpose.WellFormed) :
    (purpose.served e).WellFormed := by
  cases purpose with
  | pattern earlier place => exact ⟨h, trivial⟩
  | printArg before place context => exact ⟨by simp, h⟩
  | assign name op place slot => exact Slot.wellFormed_filled _ h
  | ifCondition place context => exact h
  | forCondition init place context => exact h

theorem wellFormed_beginExpr (h : purpose.WellFormed) (taken : beginExpr purpose token = .ok next) :
    next.WellFormed := by
  rw [beginExpr] at taken
  cases found : ExprReader.takeOperand [] [] token with
  | error wanted => simp [found, Except.map] at taken
  | ok state =>
    simp only [found, Except.map, Except.ok.injEq] at taken
    rw [← taken]
    exact h

theorem wellFormed_beginSimple (h : slot.WellFormed) (taken : beginSimple slot token = .ok next) :
    next.WellFormed := by
  rw [beginSimple] at taken
  split at taken <;> simp only [Except.ok.injEq, reduceCtorEq] at taken
  · rw [← taken]
    exact h
  · rw [← taken]
    exact h

theorem wellFormed_closeBrace (h : context.WellFormed) (taken : closeBrace context = .ok next) :
    next.WellFormed := by
  rw [closeBrace.eq_def] at taken
  split at taken <;> simp only [Except.ok.injEq, reduceCtorEq] at taken
  · rw [← taken]
    intro rule member
    rcases List.mem_append.mp member with earlier | last
    · exact h.1 rule earlier
    · rw [List.mem_singleton.mp last]
      exact h.2
  · rw [← taken]
    exact ⟨⟨h.1, trivial⟩, rfl, h.2⟩

theorem wellFormed_beginStatement (h : context.WellFormed)
    (taken : beginStatement context token = .ok next) : next.WellFormed := by
  rw [beginStatement] at taken
  split at taken <;> try simp only [Except.ok.injEq, reduceCtorEq] at taken
  · rw [← taken]
    exact ⟨trivial, rfl, h⟩
  · rw [← taken]
    exact ⟨trivial, h⟩
  · exact wellFormed_closeBrace h taken
  · rw [← taken]
    exact h
  · rw [← taken]
    exact h
  · rw [← taken]
    exact ⟨⟨trivial, trivial⟩, rfl, h⟩
  · rw [← taken]
    exact h
  all_goals exact wellFormed_beginSimple (show (Slot.statement context).WellFormed from h) taken

/-- A finished statement may end in an open `if` here, since the token that is taken closes it,
unless it is an `else` or a semicolon before one. -/
theorem wellFormed_afterStatement {s : Option Stmt} (h : context.WellFormed)
    (finished : AllWellFormed s.toList)
    (shut : token.kind = .symbol .semicolon ∨ token.kind = .symbol .elseWord →
      branchEndsOpen s.toList = false)
    (taken : afterStatement s context token = .ok next) : next.WellFormed := by
  have length_le (s : Option Stmt) : s.toList.length ≤ 1 := by cases s <;> simp
  induction context generalizing s with
  | rule earlier trigger place before =>
    have all := allWellFormed_append.mpr ⟨h.2, finished⟩
    exact wellFormed_beginStatement
      (show (Context.rule earlier trigger place (before ++ s.toList)).WellFormed from ⟨h.1, all⟩)
      taken
  | block place before outer ih =>
    have all := allWellFormed_append.mpr ⟨h.1, finished⟩
    exact wellFormed_beginStatement
      (show (Context.block place (before ++ s.toList) outer).WellFormed from ⟨all, h.2⟩) taken
  | thenBranch condition place outer ih =>
    rw [afterStatement] at taken
    split at taken
    · next semicolon =>
      rw [← Except.ok.inj taken]
      exact ⟨finished, shut (.inl semicolon), h⟩
    · next elseWord =>
      rw [← Except.ok.inj taken]
      exact ⟨finished, length_le s, shut (.inr elseWord), h⟩
    · next not_semicolon not_else =>
      -- The token finishes the `if` and is taken by what is around it.
      refine ih (s := some (.ifElse condition s.toList none place)) h ?_ ?_ taken
      · exact ⟨⟨finished, length_le s, trivial, by simp⟩, trivial⟩
      rintro (semicolon | elseWord)
      · exact absurd semicolon not_semicolon
      · exact absurd elseWord not_else
  | elseBranch condition branch place outer ih =>
    obtain ⟨branch_all, branch_length, branch_shut, outer_wf⟩ := h
    refine ih outer_wf ?_ ?_ taken
    · exact ⟨⟨branch_all, branch_length, ⟨finished, length_le s⟩, fun _ => branch_shut⟩, trivial⟩
    · intro waits
      simpa [branchEndsOpen, endsOpen_ifElse_some] using shut waits
  | forBody header place outer ih =>
    exact ih (s := some (.forLoop header (bodyOf s) place)) h
      ⟨allWellFormed_bodyOf finished, trivial⟩ (fun _ => rfl) taken

theorem wellFormed_beginRule {earlier : List Rule} (h : RulesWellFormed earlier)
    (taken : beginRule earlier token = .ok next) : next.WellFormed := by
  rw [beginRule] at taken
  split at taken <;> try simp only [Except.ok.injEq] at taken
  · rw [← taken]
    exact ⟨h, trivial⟩
  · rw [← taken]
    exact ⟨h, trivial⟩
  · rw [← taken]
    exact ⟨h, trivial⟩
  · exact wellFormed_beginExpr (show (Purpose.pattern earlier token.place).WellFormed from h) taken

theorem Mode.wellFormed_take {mode : Mode} (h : mode.WellFormed)
    (taken : mode.take token = .ok next) : next.WellFormed := by
  cases mode with
  | rules earlier => exact wellFormed_beginRule h taken
  | expect s mode =>
    rw [Mode.take] at taken
    split at taken
    · rw [← Except.ok.inj taken]
      exact h
    · simp at taken
  | statement context => exact wellFormed_beginStatement h taken
  | finished s context => exact wellFormed_afterStatement h.2.2 h.1 (fun _ => h.2.1) taken
  | printed args place context =>
    rw [Mode.take] at taken
    split at taken
    · rw [← Except.ok.inj taken]
      exact h.2
    · exact wellFormed_afterStatement (s := some (.print args place)) h.2 ⟨h.1, trivial⟩
        (fun _ => rfl) taken
  | ifCondition place context =>
    exact wellFormed_beginExpr (show (Purpose.ifCondition place context).WellFormed from h) taken
  | stepped step place slot =>
    rw [Mode.take] at taken
    split at taken
    · rw [← Except.ok.inj taken]
      exact Slot.wellFormed_filled _ h
    · simp at taken
  | named x place slot =>
    rw [Mode.take] at taken
    split at taken
    · rw [← Except.ok.inj taken]
      exact Slot.wellFormed_filled _ h
    · rw [← Except.ok.inj taken]
      exact h
    · simp at taken
  | forInit place context =>
    rw [Mode.take] at taken
    split at taken
    · rw [← Except.ok.inj taken]
      exact h
    · exact wellFormed_beginSimple (show (Slot.forInit place context).WellFormed from h) taken
  | forCondition init place context =>
    rw [Mode.take] at taken
    split at taken
    · rw [← Except.ok.inj taken]
      exact h
    · exact wellFormed_beginExpr
        (show (Purpose.forCondition init place context).WellFormed from h) taken
  | forUpdate init condition place context =>
    rw [Mode.take] at taken
    split at taken
    · rw [← Except.ok.inj taken]
      exact h
    · exact wellFormed_beginSimple
        (show (Slot.forUpdate init condition place context).WellFormed from h) taken

theorem State.wellFormed_take {state : State} (h : state.WellFormed)
    (taken : state.take token = .ok next) : next.WellFormed := by
  cases state with
  | between mode => exact Mode.wellFormed_take h taken
  | inExpr state purpose =>
    rw [State.take] at taken
    split at taken
    · rw [← Except.ok.inj taken]
      exact h
    · exact Mode.wellFormed_take (Purpose.wellFormed_served _ h) taken
    · simp at taken

/-- What is read from a well-formed state on is well formed. -/
theorem wellFormed_of_read {state : State} {tokens rest : List Token} {eof : Token}
    {program : Program} (h : state.WellFormed)
    (found : read state tokens eof = (.ok program, rest)) : program.WellFormed := by
  obtain ⟨-, final, taken, complete⟩ := takeAll_of_read found
  have final_wf : final.WellFormed := State.takeAll_invariant State.wellFormed_take h taken
  obtain ⟨rfl, some_rule⟩ := State.program?_eq_some_iff.mp complete
  exact ⟨some_rule, final_wf⟩

end Reader

theorem Stream.wellFormed_of_parse {stream : Stream} {program : Program}
    (h : stream.parse.1 = .ok program) : program.WellFormed := by
  have start : Reader.State.start.WellFormed := by
    intro rule member
    simp at member
  exact Reader.wellFormed_of_read start (Prod.ext h rfl)

end FieldScript
