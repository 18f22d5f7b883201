import FieldScript.Proofs.Session.Relevance
import Mathlib

/-!
# Updates of a variable

An assignment with an operator does what the plain assignment of the operation does. An increment,
on either side of the name, does what the assignment of the operator with the operand one does: a
decrement adds minus one where the assignment takes one away, which comes to the same on integers
within 64 bits, at their limits and on floats. Only a variable that holds text makes a difference,
since stepping it fails even where the text has a number.
-/

namespace FieldScript

namespace Numeric

open Float.Model Float.Model.UnpackedFloat

theorem apply_neg (sign : Sign) (n : Int) : (-sign).apply n = -sign.apply n := by
  cases sign with
  | positive => rfl
  | negative => exact (Int.neg_neg n).symm

/-- Taking a float away is adding its opposite. -/
theorem sub_eq_add_neg (spec : Format) (a b : UnpackedFloat) :
    UnpackedFloat.sub spec a b = UnpackedFloat.add spec a b.neg := by
  cases a <;> cases b <;>
    simp [UnpackedFloat.sub, UnpackedFloat.add, UnpackedFloat.neg, apply_neg, Int.sub_eq_add_neg]

theorem sub_one (x : Float) : x - ofInt 1 = x + ofInt (-1) := by
  have opposite : (ofInt (-1)).toModel.unpack = (ofInt 1).toModel.unpack.neg := by rfl
  change Float.ofModel (.pack (UnpackedFloat.sub .binary64 x.toModel.unpack
    (ofInt 1).toModel.unpack)) = Float.ofModel (.pack (UnpackedFloat.add .binary64
      x.toModel.unpack (ofInt (-1)).toModel.unpack))
  rw [opposite, sub_eq_add_neg]

end Numeric

namespace Step

/-- The operator that does the same with the operand one. -/
def arith : Step → Arith
  | up => .add
  | down => .subtract

end Step

namespace Arith

/-- Within 64 bits, past their limits and on floats, one less is minus one more. -/
theorem onNumbers_subtract_one (n : Number) :
    subtract.onNumbers n (.int 1) = add.onNumbers n (.int (-1)) := by
  have floats_eq (x : Float) : subtract.onFloats x (Number.int 1).toFloat =
      add.onFloats x (Number.int (-1)).toFloat := Numeric.sub_one x
  have integers_eq : subtract.onIntegerPair n (.int 1) = add.onIntegerPair n (.int (-1)) := by
    cases n <;> rfl
  rw [onNumbers, onNumbers, integers_eq, floats_eq]

end Arith

namespace Value

theorem arithmetic_step {v : Value} (numeric : v.isNumeric = true) (step : Step) :
    arithmetic .add v step.amount = arithmetic step.arith v (.int 1) := by
  cases step with
  | up => rfl
  | down =>
    cases v with
    | text s => cases numeric
    | int n =>
      change Except.ok (ofNumber (Arith.add.onNumbers (.int n) (.int (-1)))) =
        .ok (ofNumber (Arith.subtract.onNumbers (.int n) (.int 1)))
      rw [Arith.onNumbers_subtract_one]
    | float x =>
      change Except.ok (ofNumber (Arith.add.onNumbers (.float x) (.int (-1)))) =
        .ok (ofNumber (Arith.subtract.onNumbers (.float x) (.int 1)))
      rw [Arith.onNumbers_subtract_one]

end Value

theorem Simple.run_congr {world : World} {s t : Simple} (target_eq : s.target = t.target)
    (value_eq : s.newValue world = t.newValue world) : s.run world = t.run world := by
  rw [run, run, target_eq, value_eq]

section Updates

variable (world : World) (name : String)

theorem run_operator_assign (op : Arith) (e : Expr) (place other var_place op_place : Location) :
    (Simple.assign name (some op) e place).run world =
      (Simple.assign name none (.binary (.arith op) (.var name var_place) e op_place) other).run
        world := by
  apply Simple.run_congr
  · rfl
  · rw [Simple.newValue, Simple.newValue, World.eval, World.eval, Expr.eval, Expr.eval]
    cases e.eval world.store world.record <;> rfl

variable {world name}

theorem run_increment (numeric : (world.store.get name).isNumeric = true) (step : Step)
    (side : Side) (place other one_place : Location) :
    (Simple.increment name step side place).run world =
      (Simple.assign name (some step.arith) (.literal (.int 1) one_place) other).run world := by
  apply Simple.run_congr
  · rfl
  · rw [Simple.newValue_increment, if_pos numeric, Value.arithmetic_step numeric]
    rfl

theorem run_increment_text {text : String} (held : world.store.get name = .text text)
    (step : Step) (side : Side) (place : Location) :
    (Simple.increment name step side place).run world = .error (.increment name text) := by
  rw [Simple.run, Simple.newValue_increment, held]
  rfl

end Updates

/-- Each update does what its longer form does; only a variable that holds text is not stepped. -/
theorem exec_updates (fuel : Nat) (world : World) (name : String) :
    (∀ op e place other var_place op_place,
      (Stmt.simple (.assign name (some op) e place)).exec fuel world =
        (Stmt.simple (.assign name none (.binary (.arith op) (.var name var_place) e op_place)
          other)).exec fuel world) ∧
    ((∀ text, world.store.get name ≠ .text text) → ∀ step side place other one_place,
      (Stmt.simple (.increment name step side place)).exec fuel world =
        (Stmt.simple (.assign name (some step.arith) (.literal (.int 1) one_place) other)).exec
          fuel world) ∧
    ∀ text, world.store.get name = .text text → ∀ step side place,
      (Stmt.simple (.increment name step side place)).exec fuel world =
        (.failed (.increment name text), world) := by
  refine ⟨?_, ?_, ?_⟩
  · intro op e place other var_place op_place
    rw [Stmt.exec, Stmt.exec, run_operator_assign]
  · intro no_text step side place other one_place
    have numeric : (world.store.get name).isNumeric = true := by
      cases held : world.store.get name with
      | text text => exact absurd held (no_text text)
      | int n => rfl
      | float x => rfl
    rw [Stmt.exec, Stmt.exec, run_increment numeric]
  · intro text held step side place
    rw [Stmt.exec, run_increment_text held]
    rfl

/-- The variable `x` at the least integer, `y` before it is set, and `z` with a text that has a
number: an assignment with an operator takes it for that number, and a step fails. -/
theorem exec_updates_at_limit :
    let store :=
      (Store.start.set "x" (.int (-9223372036854775808))).set "z" (.text " 9223372036854775807")
    let world : World := ⟨store, .start, .ofRoom none⟩
    (Stmt.simple (.increment "x" .down .after .start)).exec 0 world =
      (Stmt.simple (.assign "x" (some .subtract) (.literal (.int 1) .start) .start)).exec 0 world ∧
    (Stmt.simple (.increment "y" .down .before .start)).exec 0 world =
      (Stmt.simple (.assign "y" (some .subtract) (.literal (.int 1) .start) .start)).exec 0 world ∧
    (Stmt.simple (.assign "z" (some .modulo) (.var "x" .start) .start)).exec 0 world =
      (.normal, { world with store := store.set "z" (.int 9223372036854775807) }) ∧
    (Stmt.simple (.increment "z" .up .before .start)).exec 0 world =
      (.failed (.increment "z" " 9223372036854775807"), world) := by
  intro store world
  have least : store.get "x" = .int (-9223372036854775808) := by decide +kernel
  have unset : store.get "y" = .zero := by decide +kernel
  have held : store.get "z" = .text " 9223372036854775807" := by decide +kernel
  refine ⟨?_, ?_, ?_, ?_⟩
  · apply (exec_updates 0 world "x").2.1
    intro text
    rw [least]
    exact Value.noConfusion
  · apply (exec_updates 0 world "y").2.1
    intro text
    rw [unset]
    exact Value.noConfusion
  · rw [(exec_updates 0 world "z").1 .modulo (.var "x" .start) .start .start .start .start]
    have remainder : (Expr.binary (.arith .modulo) (.var "z" .start) (.var "x" .start) .start).eval
        store .start = .ok (.int 9223372036854775807) := by decide +kernel
    rw [Stmt.exec, Simple.run, Simple.newValue, World.eval, remainder]
    rfl
  · exact (exec_updates 0 world "z").2.2 _ held .up .before .start

end FieldScript
