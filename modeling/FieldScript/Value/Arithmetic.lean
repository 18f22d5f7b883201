import FieldScript.Value.Basic

/-!
# Arithmetic on values

Operators work on the numeric forms of their operands. Two integers give an integer whenever the
exact result is one of 64 bits; otherwise, and when either operand is a float, the operation is done
on floats. A quotient is always a float. The left operand is checked first, then the right one, then
the divisor.
-/

namespace FieldScript

inductive Arith where
  | add
  | subtract
  | multiply
  | divide
  | modulo
  deriving DecidableEq, Repr

inductive OperatorFault where
  | nonNumeric (symbol : String) (operand : String)
  | divisionByZero
  | moduloByZero
  deriving DecidableEq, Repr

namespace Arith

def symbol : Arith → String
  | add => "+"
  | subtract => "-"
  | multiply => "*"
  | divide => "/"
  | modulo => "%"

/-- The integer result, where there is one. A remainder belongs to a quotient, so it is there only
when the quotient fits 64 bits too. -/
def onIntegers : Arith → Int → Int → Option Int64
  | add, a, b => Number.fit (a + b)
  | subtract, a, b => Number.fit (a - b)
  | multiply, a, b => Number.fit (a * b)
  | divide, _, _ => none
  | modulo, a, b => if (Number.fit (a.tdiv b)).isSome then Number.fit (a.tmod b) else none

def onIntegerPair (op : Arith) : Number → Number → Option Int64
  | .int a, .int b => op.onIntegers a.toInt b.toInt
  | _, _ => none

def onFloats : Arith → Float → Float → Float
  | add, x, y => x + y
  | subtract, x, y => x - y
  | multiply, x, y => x * y
  | divide, x, y => x / y
  | modulo, x, y => Numeric.remainder x y

/-- The result on numbers, the divisor taken not to be zero. -/
def onNumbers (op : Arith) (l r : Number) : Number :=
  match op.onIntegerPair l r with
  | some n => .int n
  | none => .float (op.onFloats l.toFloat r.toFloat)

def zeroFault? : Arith → Option OperatorFault
  | divide => some .divisionByZero
  | modulo => some .moduloByZero
  | _ => none

end Arith

namespace OperatorFault

def operator : OperatorFault → String
  | nonNumeric symbol _ => symbol
  | divisionByZero => Arith.divide.symbol
  | moduloByZero => Arith.modulo.symbol

def cause : OperatorFault → String
  | nonNumeric _ operand => "non-numeric operand \"" ++ operand ++ "\""
  | divisionByZero => "division by zero"
  | moduloByZero => "modulo by zero"

end OperatorFault

def Number.isZero : Number → Bool
  | .int n => n = 0
  | .float x => x == 0.0

namespace Value

def operand (symbol : String) (v : Value) : Except OperatorFault Number :=
  match v.toNumber with
  | some n => .ok n
  | none => .error (.nonNumeric symbol v.display)

/-- The result of an arithmetic operator. -/
def arithmetic (op : Arith) (l r : Value) : Except OperatorFault Value := do
  let a ← l.operand op.symbol
  let b ← r.operand op.symbol
  match op.zeroFault? with
  | some fault => if b.isZero then throw fault else pure (ofNumber (op.onNumbers a b))
  | none => pure (ofNumber (op.onNumbers a b))

/-- The opposite number; the least integer has no integer opposite. -/
def negate (v : Value) : Except OperatorFault Value := do
  match ← v.operand Arith.subtract.symbol with
  | .int n =>
    match Number.fit (-n.toInt) with
    | some m => pure (.int m)
    | none => pure (.float (-Numeric.ofInt n.toInt))
  | .float x => pure (.float (-x))

/-- One for a value that counts as false, zero for any other. -/
def not (v : Value) : Value := ofBool !v.isTruthy

end Value

end FieldScript
