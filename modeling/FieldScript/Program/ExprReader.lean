import FieldScript.Program.Basic
import FieldScript.Program.Fault

/-!
# Reading expressions token by token

Part of an expression has been read, and the next token says how it goes on. Operators that wait for
their right operand, and parentheses that wait to be closed, are kept on a stack. An expression ends
at the first token that can be no part of it.
-/

namespace FieldScript.ExprReader

structure Sign where
  op : UnaryOp
  place : Location
  deriving DecidableEq, Repr

/-- What waits for the expression being read: an operator with its left operand, or a parenthesis
with the signs in front of it. -/
inductive Frame where
  | binary (op : BinaryOp) (left : Expr) (place : Location)
  | group (signs : List Sign)
  deriving DecidableEq, Repr

/-- An operand is to come, or the index of a field, or an operand has been read and an operator may
follow. The nearest sign and the innermost frame come first. -/
inductive State where
  | operand (signs : List Sign) (frames : List Frame)
  | index (place : Location) (signs : List Sign) (frames : List Frame)
  | operator (e : Expr) (frames : List Frame)
  deriving DecidableEq, Repr

def State.start : State := .operand [] []

/-- An operand under its signs, the nearest one applied first. -/
def wrap (signs : List Sign) (e : Expr) : Expr :=
  signs.foldl (fun e sign => .unary sign.op e sign.place) e

/-- Completes the waiting operators that bind at least as close as `level`. -/
def reduce (level : Nat) (e : Expr) : List Frame → Expr × List Frame
  | .binary op left place :: frames =>
    if level ≤ op.level then reduce level (.binary op left e place) frames
    else (e, .binary op left place :: frames)
  | frames => (e, frames)

def close (e : Expr) : List Frame → Expr × Option (List Sign × List Frame)
  | [] => (e, none)
  | .group signs :: frames => (e, some (signs, frames))
  | .binary op left place :: frames => close (.binary op left e place) frames

def takeOperand (signs : List Sign) (frames : List Frame) (token : Token) :
    Except Wanted State :=
  let found (e : Expr) : Except Wanted State := .ok (.operator (wrap signs e) frames)
  match token.kind with
  | .integer n => found (.literal (.int n) token.place)
  | .float x => found (.literal (.float x) token.place)
  | .text s => found (.literal (.text s) token.place)
  | .name x => found (.var x token.place)
  | .symbol .bang => .ok (.operand (⟨.not, token.place⟩ :: signs) frames)
  | .symbol .minus => .ok (.operand (⟨.negate, token.place⟩ :: signs) frames)
  | .symbol .dollar => .ok (.index token.place signs frames)
  | .symbol .leftParen => .ok (.operand [] (.group signs :: frames))
  | _ => .error .other

def fieldIndex? (token : Token) : Option FieldIndex :=
  match token.kind with
  | .integer n => some (.literal (.int n) token.place)
  | .float x => some (.literal (.float x) token.place)
  | .name x => some (.var x token.place)
  | _ => none

def binaryOp? (token : Token) : Option BinaryOp :=
  match token.kind with
  | .symbol s => BinaryOp.ofSymbol? s
  | _ => none

/-- The outcome of one more token: it belongs to the expression, or the expression ended before
it. -/
inductive Step where
  | more (state : State)
  | done (e : Expr)
  | wrong (wanted : Wanted)
  deriving DecidableEq, Repr

def takeOperator (e : Expr) (frames : List Frame) (token : Token) : Step :=
  match binaryOp? token with
  | some op =>
    let (left, frames) := reduce op.level e frames
    .more (.operand [] (.binary op left token.place :: frames))
  | none =>
    match close e frames with
    | (e, none) => .done e
    | (e, some (signs, frames)) =>
      if token.kind = .symbol .rightParen then .more (.operator (wrap signs e) frames)
      else .wrong (.symbol .rightParen)

def State.take : State → Token → Step
  | operand signs frames, token =>
    match takeOperand signs frames token with
    | .ok state => .more state
    | .error wanted => .wrong wanted
  | index place signs frames, token =>
    match fieldIndex? token with
    | some i => .more (.operator (wrap signs (.field i place)) frames)
    | none => .wrong .fieldIndex
  | operator e frames, token => takeOperator e frames token

theorem State.take_eof_ne_more (state next : State) {token : Token} (h : token.kind = .eof) :
    state.take token ≠ .more next := by
  cases state with
  | operand signs frames => simp [take, takeOperand, h]
  | index place signs frames => simp [take, fieldIndex?, h]
  | operator e frames =>
    simp only [take, takeOperator, binaryOp?, h]
    split <;> simp

/-- Reads on from a state to the end of the expression; `eof` is the end of the script. What is left
begins with the token after the expression, or with the one that is wrong. -/
def read : State → List Token → Token → Except GrammarFault Expr × List Token
  | state, [], eof =>
    match state.take eof with
    | .done e => (.ok e, [])
    | .wrong wanted => (.error ⟨wanted, eof⟩, [])
    | .more _ => (.error ⟨.other, eof⟩, [])
  | state, token :: rest, eof =>
    match state.take token with
    | .more next => read next rest eof
    | .done e => (.ok e, token :: rest)
    | .wrong wanted => (.error ⟨wanted, token⟩, token :: rest)

end FieldScript.ExprReader
