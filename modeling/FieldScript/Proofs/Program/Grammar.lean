import FieldScript.Proofs.Program.Relocation

/-!
# The grammar of expressions

A list of token kinds renders an expression at a level when it spells it out with no operator that
binds looser than the level outside parentheses. Parentheses may stand around any part, any number
of times. Locations do not matter. They do for tokens that spell an expression: there each node is
placed at the token that names it.
-/

namespace FieldScript

def Value.tokenKind : Value → TokenKind
  | int n => .integer n
  | float x => .float x
  | text s => .text s

def FieldIndex.tokenKind : FieldIndex → TokenKind
  | literal n _ => .ofNumber n
  | var x _ => .name x

/-- The level of each binary operator in the grammar. -/
def BinaryOp.precedence : BinaryOp → Nat
  | or => 1
  | and => 2
  | relation .equal => 3
  | relation .notEqual => 3
  | relation .less => 4
  | relation .lessEqual => 4
  | relation .greater => 4
  | relation .greaterEqual => 4
  | arith .add => 5
  | arith .subtract => 5
  | arith .multiply => 6
  | arith .divide => 6
  | arith .modulo => 6

/-- The reader groups operators by the levels of the grammar. -/
theorem BinaryOp.level_eq_precedence (op : BinaryOp) : op.level = op.precedence := by
  rcases op with op | relation | _ | _
  · cases op <;> rfl
  · cases relation <;> rfl
  · rfl
  · rfl

/-- The rendering of an expression at a level, from 1 for any expression to 7 for an operand. -/
inductive Renders : Nat → List TokenKind → Expr → Prop where
  | group {p : Nat} {ts : List TokenKind} {e : Expr} (inner : Renders 1 ts e) :
    Renders p (.symbol .leftParen :: ts ++ [.symbol .rightParen]) e
  | binary {p : Nat} {ls rs : List TokenKind} {op : BinaryOp} {left right : Expr}
    {place : Location} (level : p ≤ op.precedence) (hl : Renders op.precedence ls left)
    (hr : Renders (op.precedence + 1) rs right) :
    Renders p (ls ++ .symbol op.symbol :: rs) (.binary op left right place)
  | unary {p : Nat} {ts : List TokenKind} {op : UnaryOp} {operand : Expr} {place : Location}
    (level : p ≤ 7) (inner : Renders 7 ts operand) :
    Renders p (.symbol op.symbol :: ts) (.unary op operand place)
  | literal {p : Nat} {v : Value} {place : Location} : Renders p [v.tokenKind] (.literal v place)
  | var {p : Nat} {x : String} {place : Location} : Renders p [.name x] (.var x place)
  | field {p : Nat} {index : FieldIndex} {place : Location} :
    Renders p [.symbol .dollar, index.tokenKind] (.field index place)

theorem BinaryOp.one_le_level (op : BinaryOp) : 1 ≤ op.level := by
  rcases op with op | relation | _ | _ <;> (try cases op) <;> (try cases relation) <;> decide

theorem BinaryOp.level_le_six (op : BinaryOp) : op.level ≤ 6 := by
  rcases op with op | relation | _ | _ <;> (try cases op) <;> (try cases relation) <;> decide

namespace Renders

variable {p : Nat} {ts : List TokenKind} {e d : Expr}

/-- Renderings do not depend on locations. -/
theorem of_bare_eq (h : Renders p ts e) (hd : d.bare = e.bare) : Renders p ts d := by
  induction h generalizing d with
  | group inner ih => exact .group (ih hd)
  | binary level hl hr ihl ihr =>
    cases d with
    | binary op' left' right' place' =>
      simp only [Expr.bare, Expr.relocate, Expr.binary.injEq] at hd
      obtain ⟨rfl, left_eq, right_eq, -⟩ := hd
      exact .binary level (ihl left_eq) (ihr right_eq)
    | _ => simp [Expr.relocate] at hd
  | unary level inner ih =>
    cases d with
    | unary op' operand' place' =>
      simp only [Expr.bare, Expr.relocate, Expr.unary.injEq] at hd
      obtain ⟨rfl, operand_eq, -⟩ := hd
      exact .unary level (ih operand_eq)
    | _ => simp [Expr.relocate] at hd
  | literal =>
    cases d with
    | literal v' place' =>
      simp only [Expr.bare, Expr.relocate, Expr.literal.injEq] at hd
      obtain ⟨rfl, -⟩ := hd
      exact .literal
    | _ => simp [Expr.relocate] at hd
  | var =>
    cases d with
    | var x' place' =>
      simp only [Expr.bare, Expr.relocate, Expr.var.injEq] at hd
      obtain ⟨rfl, -⟩ := hd
      exact .var
    | _ => simp [Expr.relocate] at hd
  | @field p index place =>
    cases d with
    | field index' place' =>
      simp only [Expr.bare, Expr.relocate, Expr.field.injEq] at hd
      have kind_eq : index'.tokenKind = index.tokenKind := by
        cases index <;> cases index' <;>
          simp_all [FieldIndex.relocate, FieldIndex.tokenKind]
      rw [← kind_eq]
      exact .field
    | _ => simp [Expr.relocate] at hd

end Renders

def FieldIndex.token (index : FieldIndex) : Token := ⟨index.tokenKind, index.place⟩

/-- Tokens that render an expression at a level and give each node its place. -/
inductive Spells : Nat → List Token → Expr → Prop where
  | group {p : Nat} {ts : List Token} {e : Expr} {left right : Location} (inner : Spells 1 ts e) :
    Spells p (⟨.symbol .leftParen, left⟩ :: ts ++ [⟨.symbol .rightParen, right⟩]) e
  | binary {p : Nat} {ls rs : List Token} {op : BinaryOp} {left right : Expr} {place : Location}
    (level : p ≤ op.precedence) (hl : Spells op.precedence ls left)
    (hr : Spells (op.precedence + 1) rs right) :
    Spells p (ls ++ ⟨.symbol op.symbol, place⟩ :: rs) (.binary op left right place)
  | unary {p : Nat} {ts : List Token} {op : UnaryOp} {operand : Expr} {place : Location}
    (level : p ≤ 7) (inner : Spells 7 ts operand) :
    Spells p (⟨.symbol op.symbol, place⟩ :: ts) (.unary op operand place)
  | literal {p : Nat} {v : Value} {place : Location} :
    Spells p [⟨v.tokenKind, place⟩] (.literal v place)
  | var {p : Nat} {x : String} {place : Location} : Spells p [⟨.name x, place⟩] (.var x place)
  | field {p : Nat} {index : FieldIndex} {place : Location} :
    Spells p [⟨.symbol .dollar, place⟩, index.token] (.field index place)

namespace Spells

variable {p q : Nat} {ts : List Token} {e : Expr}

theorem mono (h : Spells p ts e) (hq : q ≤ p) : Spells q ts e := by
  cases h with
  | group inner => exact .group inner
  | binary level hl hr => exact .binary (Nat.le_trans hq level) hl hr
  | unary level inner => exact .unary (Nat.le_trans hq level) inner
  | literal => exact .literal
  | var => exact .var
  | field => exact .field

theorem binary_of_level {ls rs : List Token} {op : BinaryOp} {left right : Expr}
    {place : Location} (level : p ≤ op.level) (hl : Spells op.level ls left)
    (hr : Spells (op.level + 1) rs right) :
    Spells p (ls ++ ⟨.symbol op.symbol, place⟩ :: rs) (.binary op left right place) := by
  rw [op.level_eq_precedence] at level hl hr
  exact .binary level hl hr

theorem renders (h : Spells p ts e) : Renders p (ts.map Token.kind) e := by
  induction h with
  | group inner ih => simpa using Renders.group ih
  | binary level hl hr ihl ihr => simpa using Renders.binary level ihl ihr
  | unary level inner ih => exact .unary level ih
  | literal => exact .literal
  | var => exact .var
  | field => exact .field

end Spells

end FieldScript
