import FieldScript.Program.Basic

/-!
# Programs up to locations

Moving every location of a program by one map keeps its shape. Two programs are the same up to
locations when they are equal after all locations have been moved to the start.
-/

namespace FieldScript

variable (f : Location → Location)

def FieldIndex.relocate : FieldIndex → FieldIndex
  | literal n place => literal n (f place)
  | var name place => var name (f place)

def Expr.relocate : Expr → Expr
  | literal v place => literal v (f place)
  | var name place => var name (f place)
  | field index place => field (index.relocate f) (f place)
  | binary op left right place => binary op (left.relocate) (right.relocate) (f place)
  | unary op operand place => unary op (operand.relocate) (f place)

def Simple.relocate : Simple → Simple
  | assign name op value place => assign name op (value.relocate f) (f place)
  | increment name step side place => increment name step side (f place)

def LoopHeader.relocate (header : LoopHeader) : LoopHeader :=
  ⟨header.init.map (Simple.relocate f), header.condition.map (Expr.relocate f),
    header.update.map (Simple.relocate f)⟩

mutual

def Stmt.relocate : Stmt → Stmt
  | .print args place => .print (args.map (Expr.relocate f)) (f place)
  | .simple s => .simple (s.relocate f)
  | .ifElse condition thenBranch elseBranch place =>
    .ifElse (condition.relocate f) (relocateAll thenBranch) (relocateElse elseBranch) (f place)
  | .forLoop header body place => .forLoop (header.relocate f) (relocateAll body) (f place)
  | .breakLoop place => .breakLoop (f place)
  | .block body place => .block (relocateAll body) (f place)

def relocateElse : Option (List Stmt) → Option (List Stmt)
  | none => none
  | some branch => some (relocateAll branch)

def relocateAll : List Stmt → List Stmt
  | [] => []
  | s :: rest => s.relocate :: relocateAll rest

end

def Trigger.relocate : Trigger → Trigger
  | atStart => atStart
  | atEnd => atEnd
  | eachRecord pattern => eachRecord (pattern.map (Expr.relocate f))

def Rule.relocate (rule : Rule) : Rule :=
  ⟨rule.trigger.relocate f, relocateAll f rule.body, f rule.place⟩

def Program.relocate (program : Program) : Program := program.map (Rule.relocate f)

@[simp] theorem relocateElse_eq_map (branch : Option (List Stmt)) :
    relocateElse f branch = branch.map (relocateAll f) := by
  cases branch <;> rfl

@[simp] theorem relocateAll_eq_map (body : List Stmt) :
    relocateAll f body = body.map (Stmt.relocate f) := by
  induction body with
  | nil => rfl
  | cons s rest ih => rw [relocateAll, ih, List.map_cons]

abbrev Expr.bare (e : Expr) : Expr := e.relocate fun _ => .start

abbrev Simple.bare (s : Simple) : Simple := s.relocate fun _ => .start

abbrev Stmt.bare (s : Stmt) : Stmt := s.relocate fun _ => .start

abbrev Rule.bare (rule : Rule) : Rule := rule.relocate fun _ => .start

abbrev Program.bare (program : Program) : Program := program.relocate fun _ => .start

end FieldScript
