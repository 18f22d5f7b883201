import FieldScript.Value.Basic

/-!
# Comparison of values

A number and a value with a numeric form compare as numbers, exactly between integers and as floats
otherwise, where a value that is not a number equals every other. All other pairs, two texts among
them, compare by their display texts, code point by code point.
-/

namespace FieldScript

inductive Relation where
  | less
  | lessEqual
  | greater
  | greaterEqual
  | equal
  | notEqual
  deriving DecidableEq, Repr

namespace Relation

def symbol : Relation → String
  | less => "<"
  | lessEqual => "<="
  | greater => ">"
  | greaterEqual => ">="
  | equal => "=="
  | notEqual => "!="

def holds : Relation → Ordering → Bool
  | less, order => order.isLT
  | lessEqual, order => order.isLE
  | greater, order => order.isGT
  | greaterEqual, order => order.isGE
  | equal, order => order.isEq
  | notEqual, order => order.isNe

end Relation

namespace Number

def compareFloats (x y : Float) : Ordering :=
  if x < y then .lt else if y < x then .gt else .eq

def compare : Number → Number → Ordering
  | .int a, .int b => Ord.compare a.toInt b.toInt
  | a, b => compareFloats a.toFloat b.toFloat

end Number

namespace Value

/-- The numbers that a pair of values compares by. -/
def numericPair (l r : Value) : Option (Number × Number) :=
  if l.isNumeric || r.isNumeric then
    match l.toNumber, r.toNumber with
    | some a, some b => some (a, b)
    | _, _ => none
  else none

def compare (l r : Value) : Ordering :=
  match numericPair l r with
  | some (a, b) => a.compare b
  | none => Ord.compare l.display r.display

/-- One where the relation holds, zero where it does not. -/
def relate (relation : Relation) (l r : Value) : Value :=
  ofBool (relation.holds (compare l r))

theorem numericPair_swap (l r : Value) :
    numericPair r l = (numericPair l r).map fun (a, b) => (b, a) := by
  unfold numericPair
  rw [Bool.or_comm]
  split
  · cases l.toNumber <;> cases r.toNumber <;> rfl
  · rfl

end Value

end FieldScript
