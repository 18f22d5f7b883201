import FieldScript.Eval.World

/-!
# Running statements

A statement ends normally, with a `break` under way to the nearest loop around it, or with a fault.
Loops are run for a bounded number of passes; when the bound is met the run is cut off, which is an
ending of its own. Every ending comes with the world as the statement left it.
-/

namespace FieldScript

inductive Ending where
  | normal
  | broke (place : Location)
  | failed (fault : RunFault)
  | cutOff
  deriving DecidableEq, Repr

abbrev Outcome := Ending × World

namespace Outcome

def andThen (outcome : Outcome) (next : World → Outcome) : Outcome :=
  match outcome with
  | (.normal, world) => next world
  | stopped => stopped

theorem andThen_assoc (outcome : Outcome) (f g : World → Outcome) :
    (outcome.andThen f).andThen g = outcome.andThen fun world => (f world).andThen g := by
  obtain ⟨ending, world⟩ := outcome
  cases ending <;> rfl

end Outcome

/-- The outcome of a step that changes the world or leaves it and fails. -/
def World.attempt (world : World) (result : Except RunFault World) : Outcome :=
  match result with
  | .ok changed => (.normal, changed)
  | .error fault => (.failed fault, world)

/-- Runs one step for each item, up to the first that does not end normally. -/
def runEach {α : Type} (step : α → World → Outcome) : List α → World → Outcome
  | [], world => (.normal, world)
  | x :: rest, world => (step x world).andThen (runEach step rest)

theorem runEach_append {α : Type} (step : α → World → Outcome) (first rest : List α)
    (world : World) :
    runEach step (first ++ rest) world =
      (runEach step first world).andThen (runEach step rest) := by
  induction first generalizing world with
  | nil => rfl
  | cons x first ih =>
    rw [List.cons_append, runEach, runEach, Outcome.andThen_assoc]
    exact congrArg _ (funext ih)

/-- Repeats a pass until it says how the loop ends, at most `fuel` times. -/
def iterate (pass : World → Option Ending × World) : Nat → World → Outcome
  | 0, world => (.cutOff, world)
  | fuel + 1, world =>
    match pass world with
    | (none, world) => iterate pass fuel world
    | (some ending, world) => (ending, world)

namespace Step

def amount : Step → Value
  | up => .int 1
  | down => .int (-1)

end Step

namespace Simple

/-- The new value of a variable. An unset one is stepped from zero, and one that holds text
cannot be stepped. -/
def newValue (world : World) : Simple → Except RunFault Value
  | assign _ none e _ => world.eval e
  | assign name (some op) e _ => do
    let v ← world.eval e
    (Value.arithmetic op (world.store.get name) v).mapError .operator
  | increment name step _ _ =>
    match world.store.lookup name with
    | none => .ok step.amount
    | some v =>
      if v.isNumeric then (Value.arithmetic .add v step.amount).mapError .operator
      else .error (.increment name v.display)

def target : Simple → String
  | assign name .. | increment name .. => name

def run (s : Simple) (world : World) : Except RunFault World := do
  let v ← s.newValue world
  pure { world with store := world.store.set s.target v }

end Simple

/-- An absent statement changes nothing. -/
def runOptional : Option Simple → World → Except RunFault World
  | none, world => .ok world
  | some s, world => s.run world

/-- One pass of a loop: the condition, the body and the update. A `break` in the body ends the loop
before the update; `none` says that another pass follows. -/
def loopPass (header : LoopHeader) (body : World → Outcome) (world : World) :
    Option Ending × World :=
  match header.condition.elim (.ok true) fun e => (world.eval e).map Value.isTruthy with
  | .error fault => (some (.failed fault), world)
  | .ok false => (some .normal, world)
  | .ok true =>
    match body world with
    | (.normal, world) =>
      match runOptional header.update world with
      | .ok world => (none, world)
      | .error fault => (some (.failed fault), world)
    | (.broke _, world) => (some .normal, world)
    | (ending, world) => (some ending, world)

mutual

/-- Runs a statement, each loop in it for at most `fuel` passes at a time. -/
def Stmt.exec (fuel : Nat) : Stmt → World → Outcome
  | .print args _, world =>
    world.attempt do
      let values ← world.evalAll args
      world.write (world.printed values)
  | .simple s, world => world.attempt (s.run world)
  | .ifElse condition thenBranch elseBranch _, world =>
    match world.eval condition with
    | .error fault => (.failed fault, world)
    | .ok v =>
      if v.isTruthy then execAll fuel thenBranch world
      else execElse fuel elseBranch world
  | .forLoop header body _, world =>
    (world.attempt (runOptional header.init world)).andThen
      (iterate (loopPass header (execAll fuel body)) fuel)
  | .breakLoop place, world => (.broke place, world)
  | .block body _, world => execAll fuel body world

def execElse (fuel : Nat) : Option (List Stmt) → World → Outcome
  | none, world => (.normal, world)
  | some branch, world => execAll fuel branch world

/-- Runs statements in order, up to the first that does not end normally. -/
def execAll (fuel : Nat) : List Stmt → World → Outcome
  | [], world => (.normal, world)
  | s :: rest, world => (s.exec fuel world).andThen (execAll fuel rest)

end

end FieldScript
