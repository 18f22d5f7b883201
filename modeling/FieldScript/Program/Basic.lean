import FieldScript.Token.Basic
import FieldScript.Value.Arithmetic
import FieldScript.Value.Comparison

/-!
# Programs

A program is a list of rules. A rule says when its statements run: once before the records, once
after them, or for each record, where a pattern may guard it. Every node carries the location of the
token that names it; parentheses leave no node.
-/

namespace FieldScript

inductive BinaryOp where
  | arith (op : Arith)
  | relation (relation : Relation)
  | and
  | or
  deriving DecidableEq, Repr

inductive UnaryOp where
  | negate
  | not
  deriving DecidableEq, Repr

inductive FieldIndex where
  | literal (n : Number) (place : Location)
  | var (name : String) (place : Location)
  deriving DecidableEq, Repr

inductive Expr where
  | literal (v : Value) (place : Location)
  | var (name : String) (place : Location)
  | field (index : FieldIndex) (place : Location)
  | binary (op : BinaryOp) (left right : Expr) (place : Location)
  | unary (op : UnaryOp) (operand : Expr) (place : Location)
  deriving DecidableEq, Repr

inductive Step where
  | up
  | down
  deriving DecidableEq, Repr

/-- Where the sign of an increment stands; its effect is the same on both sides of the name. -/
inductive Side where
  | before
  | after
  deriving DecidableEq, Repr

/-- The statements that may stand in the header of a loop; a plain assignment has no operator. -/
inductive Simple where
  | assign (name : String) (op : Option Arith) (value : Expr) (place : Location)
  | increment (name : String) (step : Step) (side : Side) (place : Location)
  deriving DecidableEq, Repr

structure LoopHeader where
  init : Option Simple
  condition : Option Expr
  update : Option Simple
  deriving DecidableEq, Repr

inductive Stmt where
  | print (args : List Expr) (place : Location)
  | simple (s : Simple)
  | ifElse (condition : Expr) (thenBranch : List Stmt) (elseBranch : Option (List Stmt))
      (place : Location)
  | forLoop (header : LoopHeader) (body : List Stmt) (place : Location)
  | breakLoop (place : Location)
  | block (body : List Stmt) (place : Location)
  deriving Repr

inductive Trigger where
  | atStart
  | atEnd
  | eachRecord (pattern : Option Expr)
  deriving DecidableEq, Repr

structure Rule where
  trigger : Trigger
  body : List Stmt
  place : Location
  deriving Repr

abbrev Program := List Rule

namespace BinaryOp

def symbol : BinaryOp → Symbol
  | arith .add => .plus
  | arith .subtract => .minus
  | arith .multiply => .star
  | arith .divide => .slash
  | arith .modulo => .percent
  | relation .less => .less
  | relation .lessEqual => .lessEqual
  | relation .greater => .greater
  | relation .greaterEqual => .greaterEqual
  | relation .equal => .equalEqual
  | relation .notEqual => .notEqual
  | and => .andAnd
  | or => .orOr

/-- The operator that a symbol stands for between two operands. -/
def ofSymbol? : Symbol → Option BinaryOp
  | .plus => some (arith .add)
  | .minus => some (arith .subtract)
  | .star => some (arith .multiply)
  | .slash => some (arith .divide)
  | .percent => some (arith .modulo)
  | .less => some (relation .less)
  | .lessEqual => some (relation .lessEqual)
  | .greater => some (relation .greater)
  | .greaterEqual => some (relation .greaterEqual)
  | .equalEqual => some (relation .equal)
  | .notEqual => some (relation .notEqual)
  | .andAnd => some and
  | .orOr => some or
  | _ => none

theorem ofSymbol?_eq_some_iff {s : Symbol} {op : BinaryOp} :
    ofSymbol? s = some op ↔ s = op.symbol := by
  constructor
  · intro h
    cases s <;> simp_all [ofSymbol?] <;> subst h <;> rfl
  · rintro rfl
    rcases op with op | relation | _ | _
    · cases op <;> rfl
    · cases relation <;> rfl
    · rfl
    · rfl

/-- An operator of a higher level binds its operands closer; equal levels group from the left. -/
def level : BinaryOp → Nat
  | or => 1
  | and => 2
  | relation .equal | relation .notEqual => 3
  | relation _ => 4
  | arith .add | arith .subtract => 5
  | arith _ => 6

end BinaryOp

namespace UnaryOp

def symbol : UnaryOp → Symbol
  | negate => .minus
  | not => .bang

end UnaryOp

namespace FieldIndex

def place : FieldIndex → Location
  | literal _ place | var _ place => place

end FieldIndex

end FieldScript
