import FieldScript.Proofs.Program.WellFormed

/-!
# Rendering programs

The canonical tokens of a program: blocks and loop bodies in braces, a semicolon behind every
statement, an empty branch as a semicolon, and parentheses around every operator with its operands.
-/

namespace FieldScript

def Expr.render : Expr → List TokenKind
  | literal v _ => [v.tokenKind]
  | var x _ => [.name x]
  | field index _ => [.symbol .dollar, index.tokenKind]
  | binary op left right _ =>
    .symbol .leftParen :: (left.render ++ .symbol op.symbol :: right.render) ++
      [.symbol .rightParen]
  | unary op operand _ =>
    .symbol .leftParen :: (.symbol op.symbol :: operand.render) ++ [.symbol .rightParen]

def assignSymbol : Option Arith → Symbol
  | none => .assign
  | some .add => .plusAssign
  | some .subtract => .minusAssign
  | some .multiply => .starAssign
  | some .divide => .slashAssign
  | some .modulo => .percentAssign

def Step.symbol : Step → Symbol
  | up => .plusPlus
  | down => .minusMinus

def Simple.render : Simple → List TokenKind
  | assign x op value _ => .name x :: .symbol (assignSymbol op) :: value.render
  | increment x step .before _ => [.symbol step.symbol, .name x]
  | increment x step .after _ => [.name x, .symbol step.symbol]

def renderMore (args : List Expr) : List TokenKind :=
  args.flatMap fun e => .symbol .comma :: e.render

def renderArgs : List Expr → List TokenKind
  | [] => []
  | e :: rest => e.render ++ renderMore rest

def LoopHeader.render (header : LoopHeader) : List TokenKind :=
  .symbol .leftParen :: (header.init.elim [] Simple.render ++ [.symbol .semicolon]) ++
    (header.condition.elim [] Expr.render ++ [.symbol .semicolon]) ++
    (header.update.elim [] Simple.render ++ [.symbol .rightParen])

def braced (body : List TokenKind) : List TokenKind :=
  .symbol .leftBrace :: body ++ [.symbol .rightBrace]

mutual

/-- The tokens of a statement, without the semicolon behind it. -/
def Stmt.render : Stmt → List TokenKind
  | .print args _ => .symbol .printWord :: renderArgs args
  | .simple s => s.render
  | .ifElse condition thenBranch elseBranch _ =>
    [.symbol .ifWord, .symbol .leftParen] ++ (condition.render ++ [.symbol .rightParen]) ++
      (renderBranch thenBranch ++ renderElse elseBranch)
  | .forLoop header body _ => .symbol .forWord :: header.render ++ braced (renderAll body)
  | .breakLoop _ => [.symbol .breakWord]
  | .block body _ => braced (renderAll body)

/-- An empty branch is written as a semicolon. -/
def renderBranch : List Stmt → List TokenKind
  | [] => [.symbol .semicolon]
  | s :: rest => s.render ++ .symbol .semicolon :: renderAll rest

def renderElse : Option (List Stmt) → List TokenKind
  | none => []
  | some branch => .symbol .elseWord :: renderBranch branch

def renderAll : List Stmt → List TokenKind
  | [] => []
  | s :: rest => s.render ++ .symbol .semicolon :: renderAll rest

end

def Trigger.render : Trigger → List TokenKind
  | atStart => [.symbol .beginWord]
  | atEnd => [.symbol .endWord]
  | eachRecord pattern => pattern.elim [] Expr.render

def Rule.render (rule : Rule) : List TokenKind :=
  rule.trigger.render ++ braced (renderAll rule.body)

def Program.render (program : Program) : List TokenKind := program.flatMap Rule.render

theorem renders_render (p : Nat) (e : Expr) : Renders p e.render e := by
  induction e generalizing p with
  | literal v place => exact .literal
  | var x place => exact .var
  | field index place => exact .field
  | binary op left right place ihl ihr =>
    exact .group (.binary (op.level_eq_precedence ▸ op.one_le_level) (ihl _) (ihr _))
  | unary op operand place ih => exact .group (.unary (by decide) (ih _))

end FieldScript
