import FieldScript.Program.Basic
import FieldScript.Record
import FieldScript.Store

/-!
# Values of expressions

An expression reads the variables and the record and changes neither. Both operands of every binary
operator are evaluated, the left one first, and only arithmetic can fail.
-/

namespace FieldScript

namespace FieldIndex

def value (store : Store) : FieldIndex → Value
  | literal n _ => .ofNumber n
  | var name _ => store.get name

end FieldIndex

namespace BinaryOp

/-- An operator applied to the values of its operands; `&&` and `||` give one of the two back. -/
def apply (op : BinaryOp) (l r : Value) : Except OperatorFault Value :=
  match op with
  | arith a => Value.arithmetic a l r
  | relation rel => .ok (Value.relate rel l r)
  | and => .ok (if l.isTruthy then r else l)
  | or => .ok (if l.isTruthy then l else r)

end BinaryOp

namespace UnaryOp

def apply : UnaryOp → Value → Except OperatorFault Value
  | negate, v => v.negate
  | not, v => .ok v.not

end UnaryOp

namespace Expr

def eval (store : Store) (record : Record) : Expr → Except OperatorFault Value
  | literal v _ => .ok v
  | var name _ => .ok (store.get name)
  | field index _ => .ok (record.field (index.value store))
  | binary op left right _ => do
    let l ← left.eval store record
    let r ← right.eval store record
    op.apply l r
  | unary op operand _ => do
    let v ← operand.eval store record
    op.apply v

end Expr

end FieldScript
