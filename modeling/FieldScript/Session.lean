import FieldScript.Eval.Stmt
import FieldScript.Program.Parse

/-!
# Sessions

A session keeps a program, its variables and the last record. A run goes over one input: the rules
at the start, then the input cut into records by the value that `RS` has then, each record through
the rules for records, and the rules at the end. The first fault ends the run. Nothing is reset
between runs.
-/

namespace FieldScript

namespace Rule

def isAtStart (rule : Rule) : Bool := rule.trigger = .atStart

def isAtEnd (rule : Rule) : Bool := rule.trigger = .atEnd

/-- Runs the statements of a rule, where a `break` outside all loops is a fault. -/
def act (fuel : Nat) (rule : Rule) (world : World) : Outcome :=
  match execAll fuel rule.body world with
  | (.broke place, world) => (.failed (.strayBreak place), world)
  | outcome => outcome

/-- Runs a rule for the current record, if it is for records and its pattern admits this one. -/
def onRecord (fuel : Nat) (rule : Rule) (world : World) : Outcome :=
  match rule.trigger with
  | .eachRecord none => rule.act fuel world
  | .eachRecord (some pattern) =>
    match world.eval pattern with
    | .error fault => (.failed fault, world)
    | .ok v => if v.isTruthy then rule.act fuel world else (.normal, world)
  | _ => (.normal, world)

end Rule

namespace Program

def runRecord (fuel : Nat) (program : Program) (line : String) (world : World) : Outcome :=
  (world.attempt (world.beginRecord line)).andThen (runEach (Rule.onRecord fuel) program)

def run (fuel : Nat) (program : Program) (input : String) (world : World) : Outcome :=
  (runEach (Rule.act fuel) (program.filter Rule.isAtStart) world).andThen fun world =>
    (runEach (program.runRecord fuel) (Record.split world.store.rs.display input) world).andThen
      (runEach (Rule.act fuel) (program.filter Rule.isAtEnd))

end Program

structure Session where
  program : Program
  store : Store
  record : Record
  deriving Repr

namespace Session

def ofProgram (program : Program) : Session := ⟨program, .start, .start⟩

def ofScript (script : String) : Except ScriptFault Session :=
  (Program.ofScript script).map ofProgram

def setSeparator (session : Session) (separator : String) : Session :=
  { session with store := session.store.setBuiltin .fs (.text separator) }

/-- Sets a variable to the value that the text has as a field. -/
def setVariable (session : Session) (name text : String) : Session :=
  { session with store := session.store.set name (.ofField text) }

/-- What a run leaves: its ending, the texts it wrote, and the session after it. -/
structure Result where
  ending : Ending
  writes : List String
  session : Session

def run (fuel : Nat) (session : Session) (input : String) (room : Option Nat) : Result :=
  let (ending, world) :=
    session.program.run fuel input ⟨session.store, session.record, .ofRoom room⟩
  ⟨ending, world.sink.written, ⟨session.program, world.store, world.record⟩⟩

end Session

end FieldScript
