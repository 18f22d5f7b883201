import FieldScript.Proofs.Eval.Steps

/-!
# The course of a run

A run has more to it than its outcome: it passes through moments, at each of which it turns to a
record, a rule or a statement. A process goes over a world and tells both. The processes of
statements, rules and programs are put together from a few operations, and their outcomes are those
of running them.
-/

namespace FieldScript

/-- What a run turns to. -/
inductive Event where
  | record (line : String)
  | rule (rule : Rule)
  | statement (s : Stmt)

/-- An event, and the world in which the run turns to it. -/
structure Moment where
  event : Event
  world : World

/-- The moments that are passed through, in order, and the outcome. -/
structure Course where
  moments : List Moment
  ending : Ending
  world : World

namespace Course

def outcome (course : Course) : Outcome := (course.ending, course.world)

def append (first next : Course) : Course :=
  { next with moments := first.moments ++ next.moments }

end Course

abbrev Process := World → Course

namespace Process

/-- Ends at once. -/
def ended (ending : Ending) : Process := fun world => ⟨[], ending, world⟩

def attempt (event : Event) (step : World → Except RunFault World) : Process := fun world =>
  ⟨[⟨event, world⟩], (world.attempt (step world)).1, (world.attempt (step world)).2⟩

/-- Turns to an event and goes on as another process. -/
def turn (event : Event) (f : Process) : Process := fun world =>
  { f world with moments := ⟨event, world⟩ :: (f world).moments }

def bind (f : Process) (next : Ending → Process) : Process := fun world =>
  (f world).append (next (f world).ending (f world).world)

def read {α : Type} (reading : World → α) (f : α → Process) : Process := fun world =>
  f (reading world) world

def afterNormal (g : Process) : Ending → Process
  | .normal => g
  | ending => ended ending

def andThen (f g : Process) : Process := f.bind (afterNormal g)

def afterPass (g : Process) : Ending → Process
  | .normal => g
  | .broke _ => ended .normal
  | ending => ended ending

/-- The body of a loop and what follows a pass; a `break` in the body ends the loop. -/
def pass (body g : Process) : Process := body.bind (afterPass g)

def afterAction : Ending → Process
  | .broke place => ended (.failed (.strayBreak place))
  | ending => ended ending

/-- Takes a `break` outside all loops for a fault. -/
def action (f : Process) : Process := f.bind afterAction

def chosen (yes no : Process) : Except RunFault Value → Process
  | .ok v => if v.isTruthy then yes else no
  | .error fault => ended (.failed fault)

/-- Goes on by the truth of a condition. -/
def branch (condition : Expr) (yes no : Process) : Process :=
  read (·.eval condition) (chosen yes no)

/-- Does nothing more where there is a condition and it is false. -/
def guard (condition : Option Expr) (f : Process) : Process :=
  condition.elim f fun e => branch e f (ended .normal)

def each {α : Type} (f : α → Process) : List α → Process
  | [] => ended .normal
  | x :: rest => (f x).andThen (each f rest)

def simple (s : Simple) : Process := attempt (.statement (.simple s)) s.run

def given (s : Option Simple) : Process := s.elim (ended .normal) simple

/-- A loop of a bounded number of passes. -/
def loop (header : LoopHeader) (body : Process) : Nat → Process
  | 0 => ended .cutOff
  | n + 1 =>
    guard header.condition (body.pass ((given header.update).andThen (loop header body n)))

end Process

open Process

mutual

/-- What a statement does, each loop in it for at most `fuel` passes at a time. -/
def Stmt.process (fuel : Nat) : Stmt → Process
  | .print args place => attempt (.statement (.print args place)) (World.print args)
  | .simple s => simple s
  | .ifElse condition thenBranch elseBranch place =>
    turn (.statement (.ifElse condition thenBranch elseBranch place))
      (branch condition (processAll fuel thenBranch) (processElse fuel elseBranch))
  | .forLoop header body place =>
    turn (.statement (.forLoop header body place))
      ((given header.init).andThen (loop header (processAll fuel body) fuel))
  | .breakLoop place => turn (.statement (.breakLoop place)) (ended (.broke place))
  | .block body place => turn (.statement (.block body place)) (processAll fuel body)

def processElse (fuel : Nat) : Option (List Stmt) → Process
  | none => ended .normal
  | some branch => processAll fuel branch

def processAll (fuel : Nat) : List Stmt → Process
  | [] => ended .normal
  | s :: rest => (s.process fuel).andThen (processAll fuel rest)

end

namespace Rule

def once (fuel : Nat) (rule : Rule) : Process :=
  turn (.rule rule) (action (processAll fuel rule.body))

/-- A rule for the current record. -/
def perRecord (fuel : Nat) (rule : Rule) : Process :=
  match rule.trigger with
  | .eachRecord pattern => turn (.rule rule) (guard pattern (action (processAll fuel rule.body)))
  | _ => ended .normal

end Rule

namespace Program

def onRecord (fuel : Nat) (program : Program) (line : String) : Process :=
  (attempt (.record line) (·.beginRecord line)).andThen (each (Rule.perRecord fuel) program)

def process (fuel : Nat) (program : Program) (input : String) : Process :=
  (each (Rule.once fuel) (program.filter Rule.isAtStart)).andThen
    ((read (·.store.rs.display) fun separator =>
        each (program.onRecord fuel) (Record.split separator input)).andThen
      (each (Rule.once fuel) (program.filter Rule.isAtEnd)))

end Program

/-- A loop with passes left: the condition, a pass, the update and the loop again. -/
theorem iterate_loopPass_succ (header : LoopHeader) (body : World → Outcome) (n : Nat)
    (world : World) :
    iterate (loopPass header body) (n + 1) world =
      match header.condition.elim (.ok true) fun e => (world.eval e).map Value.isTruthy with
      | .error fault => (.failed fault, world)
      | .ok false => (.normal, world)
      | .ok true =>
        match body world with
        | (.normal, next) =>
          (next.attempt (runOptional header.update next)).andThen
            (iterate (loopPass header body) n)
        | (.broke _, next) => (.normal, next)
        | stopped => stopped := by
  rw [iterate, loopPass]
  generalize (header.condition.elim (.ok true) fun e => (world.eval e).map Value.isTruthy :
    Except RunFault Bool) = checked
  rcases checked with fault | _ | _
  · rfl
  · rfl
  · obtain ⟨ending, next⟩ := body world
    cases ending with
    | normal => cases updated : runOptional header.update next <;> simp only [updated] <;> rfl
    | _ => rfl

namespace Process

theorem andThen_of_normal {f g : Process} {world : World} (h : (f world).ending = .normal) :
    f.andThen g world = (f world).append (g (f world).world) := by
  unfold andThen bind
  rw [h]
  rfl

theorem andThen_of_ne_normal {f g : Process} {world : World} (h : (f world).ending ≠ .normal) :
    f.andThen g world = f world := by
  have stopped : afterNormal g (f world).ending = ended (f world).ending := by
    cases ending_eq : (f world).ending with
    | normal => exact absurd ending_eq h
    | _ => rfl
  unfold andThen bind
  rw [stopped]
  simp [ended, Course.append]

theorem outcome_andThen (f g : Process) (world : World) :
    (f.andThen g world).outcome = (f world).outcome.andThen fun next => (g next).outcome := by
  unfold andThen bind Outcome.andThen Course.outcome
  cases (f world).ending <;> rfl

theorem outcome_pass (body g : Process) (world : World) :
    (body.pass g world).outcome =
      match (body world).outcome with
      | (.normal, next) => (g next).outcome
      | (.broke _, next) => (.normal, next)
      | stopped => stopped := by
  unfold pass bind Course.outcome
  cases (body world).ending <;> rfl

theorem outcome_action (f : Process) (world : World) :
    (f.action world).outcome =
      match (f world).outcome with
      | (.broke place, next) => (.failed (.strayBreak place), next)
      | outcome => outcome := by
  unfold action bind Course.outcome
  cases (f world).ending <;> rfl

theorem outcome_branch (condition : Expr) (yes no : Process) (world : World) :
    (branch condition yes no world).outcome =
      match world.eval condition with
      | .error fault => (.failed fault, world)
      | .ok v => if v.isTruthy then (yes world).outcome else (no world).outcome := by
  unfold branch read
  cases value : world.eval condition with
  | error fault => simp only [chosen, value]; rfl
  | ok v => cases truth : v.isTruthy <;> simp [chosen, value, truth]

theorem outcome_each {α : Type} {f : α → Process} {step : α → World → Outcome}
    (h : ∀ x world, (f x world).outcome = step x world) (items : List α) (world : World) :
    (each f items world).outcome = runEach step items world := by
  induction items generalizing world with
  | nil => rfl
  | cons x rest ih =>
    rw [each, outcome_andThen, runEach, h]
    exact congrArg _ (funext ih)

theorem outcome_given (s : Option Simple) (world : World) :
    (given s world).outcome = world.attempt (runOptional s world) := by
  cases s <;> rfl

theorem outcome_loop (header : LoopHeader) {body : Process} {run : World → Outcome}
    (h : ∀ world, (body world).outcome = run world) (n : Nat) (world : World) :
    (loop header body n world).outcome = iterate (loopPass header run) n world := by
  induction n generalizing world with
  | zero => rfl
  | succ n ih =>
    have passes : (body.pass ((given header.update).andThen (loop header body n)) world).outcome =
        match run world with
        | (.normal, next) =>
          (next.attempt (runOptional header.update next)).andThen
            (iterate (loopPass header run) n)
        | (.broke _, next) => (.normal, next)
        | stopped => stopped := by
      simp only [outcome_pass, outcome_andThen, outcome_given, h, ih]
    rw [loop, iterate_loopPass_succ, ← passes]
    cases header.condition with
    | none => rfl
    | some e =>
      simp only [guard, Option.elim, outcome_branch]
      cases world.eval e with
      | error fault => rfl
      | ok v =>
        cases truth : v.isTruthy with
        | false => simp [truth, Except.map, ended, Course.outcome]
        | true => simp [truth, Except.map]

end Process

mutual

theorem Stmt.outcome_process (fuel : Nat) :
    (s : Stmt) → (world : World) → (s.process fuel world).outcome = s.exec fuel world
  | .print args place, world => by rw [Stmt.process, Stmt.exec]; rfl
  | .simple s, world => by rw [Stmt.process, Stmt.exec]; rfl
  | .ifElse condition thenBranch elseBranch place, world => by
    have thens := outcome_processAll fuel thenBranch world
    have elses := outcome_processElse fuel elseBranch world
    rw [Stmt.process, Stmt.exec, ← thens, ← elses]
    exact outcome_branch condition _ _ world
  | .forLoop header body place, world => by
    have passes := outcome_processAll fuel body
    rw [Stmt.process, Stmt.exec, ← outcome_given, ← funext (outcome_loop header passes fuel),
      ← outcome_andThen]
    rfl
  | .breakLoop place, world => by rw [Stmt.process, Stmt.exec]; rfl
  | .block body place, world => by
    rw [Stmt.process, Stmt.exec, ← outcome_processAll fuel body world]
    rfl

theorem outcome_processElse (fuel : Nat) :
    (branch : Option (List Stmt)) → (world : World) →
      (processElse fuel branch world).outcome = execElse fuel branch world
  | none, world => by rw [processElse, execElse]; rfl
  | some branch, world => by rw [processElse, execElse, outcome_processAll fuel branch world]

theorem outcome_processAll (fuel : Nat) :
    (body : List Stmt) → (world : World) →
      (processAll fuel body world).outcome = execAll fuel body world
  | [], world => by rw [processAll, execAll]; rfl
  | s :: rest, world => by
    rw [processAll, execAll, outcome_andThen, s.outcome_process fuel world,
      funext (outcome_processAll fuel rest)]

end

namespace Rule

theorem outcome_once (fuel : Nat) (rule : Rule) (world : World) :
    (rule.once fuel world).outcome = rule.act fuel world := by
  rw [act, ← outcome_processAll]
  exact outcome_action (processAll fuel rule.body) world

theorem outcome_perRecord (fuel : Nat) (rule : Rule) (world : World) :
    (rule.perRecord fuel world).outcome = rule.onRecord fuel world := by
  unfold perRecord onRecord
  cases rule.trigger with
  | eachRecord pattern =>
    cases pattern with
    | none => exact rule.outcome_once fuel world
    | some pattern =>
      rw [← rule.outcome_once]
      exact outcome_branch pattern _ _ world
  | _ => rfl

end Rule

namespace Program

theorem outcome_onRecord (fuel : Nat) (program : Program) (line : String) (world : World) :
    (program.onRecord fuel line world).outcome = program.runRecord fuel line world := by
  rw [onRecord, outcome_andThen, runRecord, funext (outcome_each (Rule.outcome_perRecord fuel) _)]
  rfl

/-- The process of a program has the outcome of a run. -/
theorem outcome_process (fuel : Nat) (program : Program) (input : String) (world : World) :
    (program.process fuel input world).outcome = program.run fuel input world := by
  have once := outcome_each (Rule.outcome_once fuel)
  have records (lines : List String) := outcome_each (outcome_onRecord fuel program) lines
  rw [process, run, outcome_andThen, once]
  apply congrArg
  funext start
  rw [outcome_andThen, funext (once _), ← records]
  rfl

end Program

namespace Session

/-- The world that a run begins in. -/
def world (session : Session) (room : Option Nat) : World :=
  ⟨session.store, session.record, .ofRoom room⟩

def course (fuel : Nat) (session : Session) (input : String) (room : Option Nat) : Course :=
  session.program.process fuel input (session.world room)

def resultOf (session : Session) (outcome : Outcome) : Result :=
  ⟨outcome.1, outcome.2.sink.written, ⟨session.program, outcome.2.store, outcome.2.record⟩⟩

theorem run_eq (fuel : Nat) (session : Session) (input : String) (room : Option Nat) :
    session.run fuel input room =
      session.resultOf (session.program.run fuel input (session.world room)) := rfl

theorem run_eq_course (fuel : Nat) (session : Session) (input : String) (room : Option Nat) :
    session.run fuel input room = session.resultOf (session.course fuel input room).outcome := by
  rw [run_eq, course, Program.outcome_process]

end Session

end FieldScript
