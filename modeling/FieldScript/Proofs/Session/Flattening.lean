import FieldScript.Session

/-!
# Bare blocks

A block that belongs to no other statement only groups: its statements run where it stands, and a
`break` or a fault in it passes through. So a program runs as its flat form does, in which each
block is replaced by its own statements.
-/

namespace FieldScript

mutual

/-- The statements that stand for a statement when no block is left at any depth. -/
def Stmt.flat : Stmt → List Stmt
  | .print args place => [.print args place]
  | .simple s => [.simple s]
  | .ifElse condition thenBranch elseBranch place =>
    [.ifElse condition (flatAll thenBranch) (flatElse elseBranch) place]
  | .forLoop header body place => [.forLoop header (flatAll body) place]
  | .breakLoop place => [.breakLoop place]
  | .block body _ => flatAll body

def flatElse : Option (List Stmt) → Option (List Stmt)
  | none => none
  | some branch => some (flatAll branch)

def flatAll : List Stmt → List Stmt
  | [] => []
  | s :: rest => s.flat ++ flatAll rest

end

def Rule.flat (rule : Rule) : Rule := { rule with body := flatAll rule.body }

def Program.flat (program : Program) : Program := program.map Rule.flat

def Session.flat (session : Session) : Session := { session with program := session.program.flat }

mutual

/-- The blocks of a statement that belong to no other statement, at every depth. -/
def Stmt.blocks : Stmt → List Location
  | .print .. | .simple .. | .breakLoop .. => []
  | .ifElse _ thenBranch elseBranch _ => blocksAll thenBranch ++ blocksElse elseBranch
  | .forLoop _ body _ => blocksAll body
  | .block body place => place :: blocksAll body

def blocksElse : Option (List Stmt) → List Location
  | none => []
  | some branch => blocksAll branch

def blocksAll : List Stmt → List Location
  | [] => []
  | s :: rest => s.blocks ++ blocksAll rest

end

theorem blocksAll_append (first rest : List Stmt) :
    blocksAll (first ++ rest) = blocksAll first ++ blocksAll rest := by
  induction first with
  | nil => rfl
  | cons s first ih => rw [List.cons_append, blocksAll, blocksAll, ih, List.append_assoc]

mutual

theorem Stmt.blocks_flat : ∀ s : Stmt, blocksAll s.flat = []
  | .print .. | .simple .. | .breakLoop .. => rfl
  | .ifElse _ thenBranch elseBranch _ => by
    rw [Stmt.flat, blocksAll, Stmt.blocks, blocks_flatAll thenBranch, blocks_flatElse elseBranch]
    rfl
  | .forLoop _ body _ => by
    rw [Stmt.flat, blocksAll, Stmt.blocks, blocks_flatAll body]
    rfl
  | .block body _ => blocks_flatAll body

theorem blocks_flatElse : ∀ branch : Option (List Stmt), blocksElse (flatElse branch) = []
  | none => rfl
  | some branch => blocks_flatAll branch

theorem blocks_flatAll : ∀ body : List Stmt, blocksAll (flatAll body) = []
  | [] => rfl
  | s :: rest => by
    rw [flatAll, blocksAll_append, s.blocks_flat, blocks_flatAll rest]
    rfl

end

mutual

theorem Stmt.flat_of_no_blocks : ∀ s : Stmt, s.blocks = [] → s.flat = [s]
  | .print .., _ | .simple .., _ | .breakLoop .., _ => rfl
  | .ifElse _ thenBranch elseBranch _, no_blocks => by
    rw [Stmt.blocks, List.append_eq_nil_iff] at no_blocks
    rw [Stmt.flat, flatAll_of_no_blocks thenBranch no_blocks.1,
      flatElse_of_no_blocks elseBranch no_blocks.2]
  | .forLoop _ body _, no_blocks => by
    rw [Stmt.flat, flatAll_of_no_blocks body no_blocks]

theorem flatElse_of_no_blocks : ∀ branch : Option (List Stmt),
    blocksElse branch = [] → flatElse branch = branch
  | none, _ => rfl
  | some branch, no_blocks => by rw [flatElse, flatAll_of_no_blocks branch no_blocks]

theorem flatAll_of_no_blocks : ∀ body : List Stmt, blocksAll body = [] → flatAll body = body
  | [], _ => rfl
  | s :: rest, no_blocks => by
    rw [blocksAll, List.append_eq_nil_iff] at no_blocks
    rw [flatAll, s.flat_of_no_blocks no_blocks.1, flatAll_of_no_blocks rest no_blocks.2]
    rfl

end

section Runs

variable (fuel : Nat)

theorem execAll_eq_runEach (body : List Stmt) :
    execAll fuel body = runEach (Stmt.exec fuel) body := by
  funext world
  induction body generalizing world with
  | nil => rfl
  | cons s rest ih =>
    rw [execAll, runEach]
    exact congrArg _ (funext ih)

theorem execAll_append (first rest : List Stmt) (world : World) :
    execAll fuel (first ++ rest) world =
      (execAll fuel first world).andThen (execAll fuel rest) := by
  rw [execAll_eq_runEach, execAll_eq_runEach, execAll_eq_runEach, runEach_append]

theorem execAll_singleton (s : Stmt) : execAll fuel [s] = s.exec fuel := by
  funext world
  rw [execAll]
  obtain ⟨ending, final⟩ := s.exec fuel world
  cases ending <;> rfl

mutual

/-- Whatever ends a block early ends the statements in its place, so nothing behind it runs. -/
theorem Stmt.execAll_flat : ∀ s : Stmt, execAll fuel s.flat = s.exec fuel
  | .print .. | .simple .. | .breakLoop .. => execAll_singleton fuel _
  | .ifElse condition thenBranch elseBranch place => by
    rw [Stmt.flat, execAll_singleton]
    funext world
    rw [Stmt.exec, Stmt.exec, execAll_flatAll thenBranch, execElse_flatElse elseBranch]
  | .forLoop header body place => by
    rw [Stmt.flat, execAll_singleton]
    funext world
    rw [Stmt.exec, Stmt.exec, execAll_flatAll body]
  | .block body place => by
    rw [Stmt.flat, execAll_flatAll body]
    funext world
    rw [Stmt.exec]

theorem execElse_flatElse :
    ∀ branch : Option (List Stmt), execElse fuel (flatElse branch) = execElse fuel branch
  | none => rfl
  | some branch => by
    funext world
    rw [flatElse, execElse, execElse, execAll_flatAll branch]

theorem execAll_flatAll : ∀ body : List Stmt, execAll fuel (flatAll body) = execAll fuel body
  | [] => rfl
  | s :: rest => by
    funext world
    rw [flatAll, execAll_append, s.execAll_flat, execAll_flatAll rest, execAll]

end

theorem Rule.act_flat (rule : Rule) : rule.flat.act fuel = rule.act fuel := by
  funext world
  rw [act, act, flat, execAll_flatAll]

theorem Rule.onRecord_flat (rule : Rule) : rule.flat.onRecord fuel = rule.onRecord fuel := by
  funext world
  rw [onRecord, onRecord, act_flat]
  rfl

theorem runEach_flat {step : Rule → World → Outcome}
    (step_flat : ∀ rule : Rule, step rule.flat = step rule) (program : Program) :
    runEach step program.flat = runEach step program := by
  induction program with
  | nil => rfl
  | cons rule rest ih =>
    funext world
    change (step rule.flat world).andThen (runEach step (Program.flat rest)) = _
    rw [step_flat, ih, runEach]

namespace Program

theorem filter_flat {kind : Rule → Bool} (kind_flat : ∀ rule : Rule, kind rule.flat = kind rule)
    (program : Program) : program.flat.filter kind = flat (program.filter kind) := by
  have kind_eq : kind ∘ Rule.flat = kind := funext kind_flat
  rw [flat, List.filter_map, kind_eq, flat]

theorem runRecord_flat (program : Program) (line : String) :
    program.flat.runRecord fuel line = program.runRecord fuel line := by
  funext world
  rw [runRecord, runRecord, runEach_flat (Rule.onRecord_flat fuel)]

theorem run_flat (program : Program) (input : String) :
    program.flat.run fuel input = program.run fuel input := by
  have records_eq : program.flat.runRecord fuel = program.runRecord fuel :=
    funext (runRecord_flat fuel program)
  have act_eq (rules : Program) : runEach (Rule.act fuel) rules.flat =
      runEach (Rule.act fuel) rules := runEach_flat (Rule.act_flat fuel) rules
  funext world
  rw [run, run, filter_flat (fun _ => rfl), filter_flat (fun _ => rfl), act_eq, act_eq, records_eq]

end Program

end Runs

/-- The flat form has no block left. -/
theorem Program.blocks_flat (program : Program) :
    ∀ rule ∈ program.flat, blocksAll rule.body = [] := by
  intro rule member
  obtain ⟨original, -, rfl⟩ := List.mem_map.mp member
  exact blocks_flatAll original.body

/-- A program without blocks is its own flat form. -/
theorem Program.flat_of_no_blocks {program : Program}
    (no_blocks : ∀ rule ∈ program, blocksAll rule.body = []) : program.flat = program := by
  have rule_eq : ∀ rule ∈ program, rule.flat = id rule := by
    intro rule member
    rw [Rule.flat, flatAll_of_no_blocks rule.body (no_blocks rule member)]
    rfl
  rw [Program.flat, List.map_congr_left rule_eq, List.map_id]

/-- A session and its flat form end alike, write the same texts and leave the same variables and
record. -/
theorem Session.blocks_transparent (fuel : Nat) (session : Session) (input : String)
    (room : Option Nat) :
    (session.flat.run fuel input room).ending = (session.run fuel input room).ending ∧
    (session.flat.run fuel input room).writes = (session.run fuel input room).writes ∧
    (session.flat.run fuel input room).session = (session.run fuel input room).session.flat := by
  rw [run, run, flat, Program.run_flat]
  exact ⟨rfl, rfl, rfl⟩

end FieldScript
