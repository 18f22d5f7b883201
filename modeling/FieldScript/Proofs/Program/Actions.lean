import FieldScript.Eval.Stmt

/-!
# The actions of a program

What a program prints, changes and tests, without the order in which it does so. The names of a
program and the variables that it may change are those of its actions.
-/

namespace FieldScript

inductive Action where
  | print (args : List Expr)
  | change (s : Simple)
  | test (condition : Expr)

def LoopHeader.actions (header : LoopHeader) : List Action :=
  header.init.toList.map .change ++ header.condition.toList.map .test ++
    header.update.toList.map .change

theorem LoopHeader.mem_actions {header : LoopHeader} {a : Action} :
    a ∈ header.actions ↔
      (∃ s ∈ header.init, .change s = a) ∨ (∃ e ∈ header.condition, .test e = a) ∨
        ∃ s ∈ header.update, .change s = a := by
  simp [actions]

mutual

/-- The actions of a statement, at every depth. -/
def Stmt.actions : Stmt → List Action
  | .print args _ => [.print args]
  | .simple s => [.change s]
  | .ifElse condition thenBranch elseBranch _ =>
    .test condition :: (actionsAll thenBranch ++ actionsElse elseBranch)
  | .forLoop header body _ => header.actions ++ actionsAll body
  | .breakLoop _ => []
  | .block body _ => actionsAll body

def actionsElse : Option (List Stmt) → List Action
  | none => []
  | some branch => actionsAll branch

def actionsAll : List Stmt → List Action
  | [] => []
  | s :: rest => s.actions ++ actionsAll rest

end

/-- The condition of a rule for records. -/
def Trigger.pattern : Trigger → Option Expr
  | .eachRecord pattern => pattern
  | _ => none

def Rule.actions (rule : Rule) : List Action :=
  rule.trigger.pattern.toList.map .test ++ actionsAll rule.body

def Program.actions (program : Program) : List Action := program.flatMap Rule.actions

def Expr.names : Expr → List String
  | .literal .. => []
  | .var name _ => [name]
  | .field (.literal ..) _ => []
  | .field (.var name _) _ => [name]
  | .binary _ left right _ => left.names ++ right.names
  | .unary _ operand _ => operand.names

def Simple.names : Simple → List String
  | assign name _ e _ => name :: e.names
  | increment name .. => [name]

namespace Action

def names : Action → List String
  | print args => args.flatMap Expr.names
  | change s => s.names
  | test e => e.names

def target? : Action → Option String
  | change s => some s.target
  | _ => none

end Action

namespace Program

def names (program : Program) : List String := program.actions.flatMap Action.names

def targets (program : Program) : List String := program.actions.filterMap Action.target?

end Program

end FieldScript
