import FieldScript.Proofs.Program.Relocation
import FieldScript.Proofs.Program.Run
import FieldScript.Proofs.Token.Apart

/-!
# Reading behind other rules

A reader that has read some rules goes on as one that has read nothing, and where the tokens stand
matters for the locations in the program only. So a state has a moved one, with all its locations
mapped and with some rules in front of its own, and a token does there what it does here.
-/

namespace FieldScript

namespace ExprReader

variable (f : Location → Location)

def Sign.relocate (sign : Sign) : Sign := ⟨sign.op, f sign.place⟩

def Frame.relocate : Frame → Frame
  | binary op left place => binary op (left.relocate f) (f place)
  | group signs => group (signs.map (Sign.relocate f))

def State.relocate : State → State
  | operand signs frames => operand (signs.map (Sign.relocate f)) (frames.map (Frame.relocate f))
  | index place signs frames =>
    index (f place) (signs.map (Sign.relocate f)) (frames.map (Frame.relocate f))
  | operator e frames => operator (e.relocate f) (frames.map (Frame.relocate f))

def Step.relocate : Step → Step
  | more state => more (state.relocate f)
  | done e => done (e.relocate f)
  | wrong wanted => wrong wanted

theorem wrap_relocate (signs : List Sign) (e : Expr) :
    wrap (signs.map (Sign.relocate f)) (e.relocate f) = (wrap signs e).relocate f := by
  induction signs generalizing e with
  | nil => rfl
  | cons sign signs ih => exact ih (.unary sign.op e sign.place)

theorem reduce_relocate (level : Nat) (e : Expr) (frames : List Frame) :
    reduce level (e.relocate f) (frames.map (Frame.relocate f)) =
      ((reduce level e frames).1.relocate f, (reduce level e frames).2.map (Frame.relocate f)) := by
  induction frames generalizing e with
  | nil => rfl
  | cons frame frames ih =>
    cases frame with
    | group signs => rfl
    | binary op left place =>
      simp only [List.map_cons, Frame.relocate, reduce]
      split
      · exact ih (.binary op left e place)
      · rfl

theorem close_relocate (e : Expr) (frames : List Frame) :
    close (e.relocate f) (frames.map (Frame.relocate f)) =
      ((close e frames).1.relocate f, (close e frames).2.map fun around =>
        (around.1.map (Sign.relocate f), around.2.map (Frame.relocate f))) := by
  induction frames generalizing e with
  | nil => rfl
  | cons frame frames ih =>
    cases frame with
    | group signs => rfl
    | binary op left place => exact ih (.binary op left e place)

theorem takeOperand_relocate (signs : List Sign) (frames : List Frame) (token : Token) :
    takeOperand (signs.map (Sign.relocate f)) (frames.map (Frame.relocate f)) (token.relocate f) =
      (takeOperand signs frames token).map (State.relocate f) := by
  obtain ⟨kind, place⟩ := token
  have found (e : Expr) : State.operator (wrap (signs.map (Sign.relocate f)) (e.relocate f))
      (frames.map (Frame.relocate f)) = (State.operator (wrap signs e) frames).relocate f := by
    rw [wrap_relocate, State.relocate]
  cases kind with
  | integer n => exact congrArg Except.ok (found (.literal (.int n) place))
  | float x => exact congrArg Except.ok (found (.literal (.float x) place))
  | text s => exact congrArg Except.ok (found (.literal (.text s) place))
  | name x => exact congrArg Except.ok (found (.var x place))
  | symbol s => cases s <;> rfl
  | eof => rfl

theorem takeOperator_relocate (e : Expr) (frames : List Frame) (token : Token) :
    takeOperator (e.relocate f) (frames.map (Frame.relocate f)) (token.relocate f) =
      (takeOperator e frames token).relocate f := by
  obtain ⟨kind, place⟩ := token
  have same_op : binaryOp? (Token.relocate f ⟨kind, place⟩) = binaryOp? ⟨kind, place⟩ := rfl
  simp only [takeOperator, same_op]
  cases binaryOp? ⟨kind, place⟩ with
  | some op =>
    simp only [reduce_relocate]
    rfl
  | none =>
    simp only [close_relocate]
    rcases close e frames with ⟨closed, _ | ⟨signs, outer⟩⟩
    · rfl
    · simp only [Option.map_some, Token.relocate, wrap_relocate]
      by_cases right : kind = .symbol .rightParen
      · rw [if_pos right, if_pos right]
        rfl
      · rw [if_neg right, if_neg right]
        rfl

theorem State.take_relocate (state : State) (token : Token) :
    (state.relocate f).take (token.relocate f) = (state.take token).relocate f := by
  cases state with
  | operand signs frames =>
    simp only [State.relocate, State.take, takeOperand_relocate]
    cases takeOperand signs frames token <;> rfl
  | index place signs frames =>
    obtain ⟨kind, at_⟩ := token
    have found (i : FieldIndex) :
        wrap (signs.map (Sign.relocate f)) (.field (i.relocate f) (f place)) =
          (wrap signs (.field i place)).relocate f := wrap_relocate f signs (.field i place)
    cases kind with
    | integer n =>
      exact congrArg (fun e => Step.more (.operator e _)) (found (.literal (.int n) at_))
    | float x =>
      exact congrArg (fun e => Step.more (.operator e _)) (found (.literal (.float x) at_))
    | name x => exact congrArg (fun e => Step.more (.operator e _)) (found (.var x at_))
    | _ => rfl
  | operator e frames => exact takeOperator_relocate f e frames token

end ExprReader

namespace Reader

variable (f : Location → Location) (front : List Rule)

def rulesMoved (rules : List Rule) : List Rule := front ++ rules.map (Rule.relocate f)

def Context.moved : Context → Context
  | rule earlier trigger place before =>
    rule (rulesMoved f front earlier) (trigger.relocate f) (f place) (relocateAll f before)
  | block place before outer => block (f place) (relocateAll f before) outer.moved
  | thenBranch condition place outer => thenBranch (condition.relocate f) (f place) outer.moved
  | elseBranch condition branch place outer =>
    elseBranch (condition.relocate f) (relocateAll f branch) (f place) outer.moved
  | forBody header place outer => forBody (header.relocate f) (f place) outer.moved

def Slot.moved : Slot → Slot
  | statement context => statement (context.moved f front)
  | forInit place context => forInit (f place) (context.moved f front)
  | forUpdate init condition place context =>
    forUpdate (init.map (Simple.relocate f)) (condition.map (Expr.relocate f)) (f place)
      (context.moved f front)

def Purpose.moved : Purpose → Purpose
  | pattern earlier place => pattern (rulesMoved f front earlier) (f place)
  | printArg before place context =>
    printArg (before.map (Expr.relocate f)) (f place) (context.moved f front)
  | assign name op place slot => assign name op (f place) (slot.moved f front)
  | ifCondition place context => ifCondition (f place) (context.moved f front)
  | forCondition init place context =>
    forCondition (init.map (Simple.relocate f)) (f place) (context.moved f front)

def Mode.moved : Mode → Mode
  | rules earlier => rules (rulesMoved f front earlier)
  | expect s next => expect s next.moved
  | statement context => statement (context.moved f front)
  | finished s context => finished (s.map (Stmt.relocate f)) (context.moved f front)
  | printed args place context =>
    printed (args.map (Expr.relocate f)) (f place) (context.moved f front)
  | ifCondition place context => ifCondition (f place) (context.moved f front)
  | stepped step place slot => stepped step (f place) (slot.moved f front)
  | named name place slot => named name (f place) (slot.moved f front)
  | forInit place context => forInit (f place) (context.moved f front)
  | forCondition init place context =>
    forCondition (init.map (Simple.relocate f)) (f place) (context.moved f front)
  | forUpdate init condition place context =>
    forUpdate (init.map (Simple.relocate f)) (condition.map (Expr.relocate f)) (f place)
      (context.moved f front)

def State.moved : State → State
  | between mode => between (mode.moved f front)
  | inExpr state purpose => inExpr (state.relocate f) (purpose.moved f front)

variable {f front}

theorem bodyOf_relocate (s : Option Stmt) :
    bodyOf (s.map (Stmt.relocate f)) = relocateAll f (bodyOf s) := by
  cases s with
  | none => rfl
  | some s => cases s <;> rfl

theorem toList_relocate (s : Option Stmt) :
    (s.map (Stmt.relocate f)).toList = relocateAll f s.toList := by
  cases s <;> rfl

theorem relocateAll_append (first rest : List Stmt) :
    relocateAll f (first ++ rest) = relocateAll f first ++ relocateAll f rest := by
  simp

theorem Slot.filled_moved (s : Simple) (slot : Slot) :
    (slot.moved f front).filled (s.relocate f) = (slot.filled s).moved f front := by
  cases slot <;> rfl

theorem Purpose.served_moved (e : Expr) (purpose : Purpose) :
    (purpose.moved f front).served (e.relocate f) = (purpose.served e).moved f front := by
  cases purpose with
  | printArg before place context => simp [Purpose.moved, Purpose.served, Mode.moved]
  | assign name op place slot => exact Slot.filled_moved (.assign name op e place) slot
  | _ => rfl

theorem beginExpr_moved (purpose : Purpose) (token : Token) :
    beginExpr (purpose.moved f front) (token.relocate f) =
      (beginExpr purpose token).map (State.moved f front) := by
  have operand := ExprReader.takeOperand_relocate f [] [] token
  rw [List.map_nil, List.map_nil] at operand
  rw [beginExpr, beginExpr, operand]
  cases ExprReader.takeOperand [] [] token <;> rfl

theorem beginSimple_moved (slot : Slot) (token : Token) :
    beginSimple (slot.moved f front) (token.relocate f) =
      (beginSimple slot token).map (State.moved f front) := by
  obtain ⟨kind, place⟩ := token
  cases kind with
  | symbol s => cases s <;> rfl
  | _ => rfl

theorem closeBrace_moved (context : Context) :
    closeBrace (context.moved f front) = (closeBrace context).map (State.moved f front) := by
  cases context with
  | rule earlier trigger place before =>
    simp [Context.moved, closeBrace, Except.map, State.moved, Mode.moved, rulesMoved,
      Rule.relocate]
  | _ => rfl

theorem beginStatement_moved (context : Context) (token : Token) :
    beginStatement (context.moved f front) (token.relocate f) =
      (beginStatement context token).map (State.moved f front) := by
  obtain ⟨kind, place⟩ := token
  cases kind with
  | symbol s =>
    cases s with
    | rightBrace => exact closeBrace_moved context
    | _ => rfl
  | _ => rfl

theorem afterStatement_moved (s : Option Stmt) (context : Context) (token : Token) :
    afterStatement (s.map (Stmt.relocate f)) (context.moved f front) (token.relocate f) =
      (afterStatement s context token).map (State.moved f front) := by
  induction context generalizing s with
  | rule earlier trigger place before =>
    rw [Context.moved, afterStatement, toList_relocate, ← relocateAll_append]
    exact beginStatement_moved (.rule earlier trigger place (before ++ s.toList)) token
  | block place before outer ih =>
    rw [Context.moved, afterStatement, toList_relocate, ← relocateAll_append]
    exact beginStatement_moved (.block place (before ++ s.toList) outer) token
  | thenBranch condition place outer ih =>
    have finished := ih (some (.ifElse condition s.toList none place))
    rw [Option.map_some, Stmt.relocate, relocateElse, ← toList_relocate] at finished
    obtain ⟨kind, at_⟩ := token
    cases kind with
    | symbol symbol =>
      cases symbol with
      | semicolon => rfl
      | elseWord =>
        simp only [Context.moved, Token.relocate, afterStatement, toList_relocate]
        rfl
      | _ => exact finished
    | _ => exact finished
  | elseBranch condition thenBranch place outer ih =>
    have finished := ih (some (.ifElse condition thenBranch (some s.toList) place))
    rw [Option.map_some, Stmt.relocate, relocateElse, ← toList_relocate] at finished
    exact finished
  | forBody header place outer ih =>
    have finished := ih (some (.forLoop header (bodyOf s) place))
    rw [Option.map_some, Stmt.relocate, ← bodyOf_relocate] at finished
    exact finished

theorem beginRule_moved (earlier : List Rule) (token : Token) :
    beginRule (rulesMoved f front earlier) (token.relocate f) =
      (beginRule earlier token).map (State.moved f front) := by
  obtain ⟨kind, place⟩ := token
  have pattern : beginExpr ((Purpose.pattern earlier place).moved f front) ⟨kind, f place⟩ = _ :=
    beginExpr_moved (.pattern earlier place) ⟨kind, place⟩
  cases kind with
  | symbol s =>
    cases s with
    | beginWord | endWord | leftBrace => rfl
    | _ => exact pattern
  | _ => exact pattern

theorem Mode.take_moved (mode : Mode) (token : Token) :
    (mode.moved f front).take (token.relocate f) =
      (mode.take token).map (State.moved f front) := by
  have same_kind : (token.relocate f).kind = token.kind := rfl
  cases mode with
  | rules earlier => exact beginRule_moved earlier token
  | expect s next =>
    rw [Mode.moved, Mode.take, Mode.take, same_kind]
    split <;> rfl
  | statement context => exact beginStatement_moved context token
  | finished s context => exact afterStatement_moved s context token
  | printed args place context =>
    rw [Mode.moved, Mode.take, Mode.take, same_kind]
    split
    · rfl
    · exact afterStatement_moved (some (.print args place)) context token
  | ifCondition place context => exact beginExpr_moved (.ifCondition place context) token
  | stepped step place slot =>
    rw [Mode.moved, Mode.take, Mode.take, same_kind]
    split
    · next x _ =>
      exact congrArg (fun mode => Except.ok (State.between mode))
        (Slot.filled_moved (.increment x step .before place) slot)
    · rfl
  | named x place slot =>
    rw [Mode.moved, Mode.take, Mode.take, same_kind]
    cases step? token.kind with
    | some step =>
      exact congrArg (fun mode => Except.ok (State.between mode))
        (Slot.filled_moved (.increment x step .after place) slot)
    | none => cases assignment? token.kind <;> rfl
  | forInit place context =>
    rw [Mode.moved, Mode.take, Mode.take, same_kind]
    split
    · rfl
    · exact beginSimple_moved (.forInit place context) token
  | forCondition init place context =>
    rw [Mode.moved, Mode.take, Mode.take, same_kind]
    split
    · rfl
    · exact beginExpr_moved (.forCondition init place context) token
  | forUpdate init condition place context =>
    rw [Mode.moved, Mode.take, Mode.take, same_kind]
    split
    · rfl
    · exact beginSimple_moved (.forUpdate init condition place context) token

/-- A moved token does in a moved state what the token does in the state. -/
theorem State.take_moved (state : State) (token : Token) :
    (state.moved f front).take (token.relocate f) =
      (state.take token).map (State.moved f front) := by
  cases state with
  | between mode => exact mode.take_moved token
  | inExpr state purpose =>
    simp only [State.moved, State.take, ExprReader.State.take_relocate]
    cases state.take token with
    | more next => rfl
    | done e =>
      change ((purpose.moved f front).served (e.relocate f)).take (token.relocate f) = _
      rw [Purpose.served_moved]
      exact (purpose.served e).take_moved token
    | wrong wanted => rfl

end Reader

end FieldScript
