import FieldScript.Eval.Expr

/-!
# What a running program changes

A run has variables, a current record and a sink for what is printed. A sink may have room for a
limited number of writes; the write after the last one fails and changes nothing.
-/

namespace FieldScript

/-- Why a run stopped early. -/
inductive RunFault where
  | operator (fault : OperatorFault)
  | increment (name : String) (held : String)
  | strayBreak (place : Location)
  | sinkClosed
  deriving DecidableEq, Repr

namespace RunFault

def message : RunFault → String
  | operator fault => "error applying operator '" ++ fault.operator ++ "': " ++ fault.cause
  | increment name held =>
    "type error: cannot increment or decrement '" ++ name ++ "' holding non-numeric value \"" ++
      held ++ "\""
  | strayBreak place => "break at " ++ place.describe ++ " is not inside a for loop"
  | sinkClosed => "I/O error: sink closed"

end RunFault

/-- The texts written so far, the newest first, and how many more can be; `none` is no limit. -/
structure Sink where
  newest : List String
  room : Option Nat
  deriving DecidableEq, Repr

namespace Sink

def ofRoom (room : Option Nat) : Sink := ⟨[], room⟩

def written (sink : Sink) : List String := sink.newest.reverse

def write (sink : Sink) (text : String) : Except RunFault Sink :=
  match sink.room with
  | none => .ok ⟨text :: sink.newest, none⟩
  | some 0 => .error .sinkClosed
  | some (n + 1) => .ok ⟨text :: sink.newest, some n⟩

end Sink

structure World where
  store : Store
  record : Record
  sink : Sink
  deriving DecidableEq, Repr

namespace World

def eval (world : World) (e : Expr) : Except RunFault Value :=
  (e.eval world.store world.record).mapError .operator

def evalAll (world : World) : List Expr → Except RunFault (List Value)
  | [] => .ok []
  | e :: rest => do
    let v ← world.eval e
    let vs ← world.evalAll rest
    pure (v :: vs)

/-- What printing values writes: their texts with `OFS` between them and `ORS` at the end. -/
def printed (world : World) (values : List Value) : String :=
  world.store.ofs.display.intercalate (values.map Value.display) ++ world.store.ors.display

def write (world : World) (text : String) : Except RunFault World := do
  let sink ← world.sink.write text
  pure { world with sink }

/-- The world with the next record: `NR` goes up by one, the line is cut at `FS`, and `NF` is the
number of its fields. -/
def beginRecord (world : World) (line : String) : Except RunFault World := do
  let nr ← (Value.arithmetic .add world.store.nr (.int 1)).mapError .operator
  let record := Record.ofLine world.store.fs.display line
  let nf := Value.int (Int64.ofNat record.fields.length)
  pure { world with store := { world.store with nr, nf }, record }

end World

end FieldScript
