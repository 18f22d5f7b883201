import FieldScript.Program.ExprReader

/-!
# Reading programs token by token

What has been read of a program is a state, and each token takes one state to the next or is wrong
there. The statement being read knows the statements around it. A finished statement stays open for
one more token, since a branch may be followed by `else`, with semicolons before it; at any other
token the `if` around it is finished too.
-/

namespace FieldScript.Reader

/-- What a statement is part of, from the inside out. -/
inductive Context where
  | rule (earlier : List Rule) (trigger : Trigger) (place : Location) (before : List Stmt)
  | block (place : Location) (before : List Stmt) (outer : Context)
  | thenBranch (condition : Expr) (place : Location) (outer : Context)
  | elseBranch (condition : Expr) (thenBranch : List Stmt) (place : Location) (outer : Context)
  | forBody (header : LoopHeader) (place : Location) (outer : Context)

inductive Slot where
  | statement (context : Context)
  | forInit (place : Location) (context : Context)
  | forUpdate (init : Option Simple) (condition : Option Expr) (place : Location)
      (context : Context)

/-- What an expression is read for. -/
inductive Purpose where
  | pattern (earlier : List Rule) (place : Location)
  | printArg (before : List Expr) (place : Location) (context : Context)
  | assign (name : String) (op : Option Arith) (place : Location) (slot : Slot)
  | ifCondition (place : Location) (context : Context)
  | forCondition (init : Option Simple) (place : Location) (context : Context)

/-- What is to come, between expressions. -/
inductive Mode where
  | rules (earlier : List Rule)
  | expect (s : Symbol) (next : Mode)
  | statement (context : Context)
  | finished (s : Option Stmt) (context : Context)
  | printed (args : List Expr) (place : Location) (context : Context)
  | ifCondition (place : Location) (context : Context)
  | stepped (step : Step) (place : Location) (slot : Slot)
  | named (name : String) (place : Location) (slot : Slot)
  | forInit (place : Location) (context : Context)
  | forCondition (init : Option Simple) (place : Location) (context : Context)
  | forUpdate (init : Option Simple) (condition : Option Expr) (place : Location)
      (context : Context)

inductive State where
  | between (mode : Mode)
  | inExpr (state : ExprReader.State) (purpose : Purpose)

def State.start : State := .between (.rules [])

/-- What a loop body holds for a statement; a braced body is its statements. -/
def bodyOf : Option Stmt → List Stmt
  | none => []
  | some (.block body _) => body
  | some s => [s]

/-- The loop that has its header, before its body. -/
def loopBody (init : Option Simple) (condition : Option Expr) (update : Option Simple)
    (place : Location) (context : Context) : Mode :=
  .statement (.forBody ⟨init, condition, update⟩ place context)

def Slot.filled (s : Simple) : Slot → Mode
  | statement context => .finished (some (.simple s)) context
  | forInit place context => .expect .semicolon (.forCondition (some s) place context)
  | forUpdate init condition place context =>
    .expect .rightParen (loopBody init condition (some s) place context)

def Purpose.served (e : Expr) : Purpose → Mode
  | pattern earlier place =>
    .expect .leftBrace (.statement (.rule earlier (.eachRecord (some e)) place []))
  | printArg before place context => .printed (before ++ [e]) place context
  | assign name op place slot => slot.filled (.assign name op e place)
  | ifCondition place context => .expect .rightParen (.statement (.thenBranch e place context))
  | forCondition init place context => .expect .semicolon (.forUpdate init (some e) place context)

def beginExpr (purpose : Purpose) (token : Token) : Except Wanted State :=
  (ExprReader.takeOperand [] [] token).map fun state => .inExpr state purpose

def step? : TokenKind → Option Step
  | .symbol .plusPlus => some .up
  | .symbol .minusMinus => some .down
  | _ => none

def assignment? : TokenKind → Option (Option Arith)
  | .symbol .assign => some none
  | .symbol .plusAssign => some (some .add)
  | .symbol .minusAssign => some (some .subtract)
  | .symbol .starAssign => some (some .multiply)
  | .symbol .slashAssign => some (some .divide)
  | .symbol .percentAssign => some (some .modulo)
  | _ => none

def beginSimple (slot : Slot) (token : Token) : Except Wanted State :=
  match step? token.kind, token.kind with
  | some step, _ => .ok (.between (.stepped step token.place slot))
  | none, .name x => .ok (.between (.named x token.place slot))
  | none, _ => .error .name

/-- A closing brace ends the rule or the block whose statements are being read. -/
def closeBrace : Context → Except Wanted State
  | .rule earlier trigger place before =>
    .ok (.between (.rules (earlier ++ [⟨trigger, before, place⟩])))
  | .block place before outer => .ok (.between (.finished (some (.block before place)) outer))
  | _ => .error .other

/-- The first token of a statement, or the brace that ends a list of them. -/
def beginStatement (context : Context) (token : Token) : Except Wanted State :=
  match token.kind with
  | .symbol .semicolon => .ok (.between (.finished none context))
  | .symbol .leftBrace => .ok (.between (.statement (.block token.place [] context)))
  | .symbol .rightBrace => closeBrace context
  | .symbol .ifWord =>
    .ok (.between (.expect .leftParen (.ifCondition token.place context)))
  | .symbol .forWord => .ok (.between (.expect .leftParen (.forInit token.place context)))
  | .symbol .breakWord =>
    .ok (.between (.expect .semicolon (.finished (some (.breakLoop token.place)) context)))
  | .symbol .printWord => .ok (.inExpr .start (.printArg [] token.place context))
  | .symbol .plusPlus | .symbol .minusMinus | .name _ => beginSimple (.statement context) token
  | _ => .error .other

/-- What a token does after a finished statement. A branch that is finished waits for its `else`. -/
def afterStatement (s : Option Stmt) : Context → Token → Except Wanted State
  | .rule earlier trigger place before, token =>
    beginStatement (.rule earlier trigger place (before ++ s.toList)) token
  | .block place before outer, token =>
    beginStatement (.block place (before ++ s.toList) outer) token
  | .thenBranch condition place outer, token =>
    match token.kind with
    | .symbol .semicolon => .ok (.between (.finished s (.thenBranch condition place outer)))
    | .symbol .elseWord =>
      .ok (.between (.statement (.elseBranch condition s.toList place outer)))
    | _ => afterStatement (some (.ifElse condition s.toList none place)) outer token
  | .elseBranch condition thenBranch place outer, token =>
    afterStatement (some (.ifElse condition thenBranch (some s.toList) place)) outer token
  | .forBody header place outer, token =>
    afterStatement (some (.forLoop header (bodyOf s) place)) outer token

def beginRule (earlier : List Rule) (token : Token) : Except Wanted State :=
  let triggered (trigger : Trigger) : Mode := .statement (.rule earlier trigger token.place [])
  match token.kind with
  | .symbol .beginWord => .ok (.between (.expect .leftBrace (triggered .atStart)))
  | .symbol .endWord => .ok (.between (.expect .leftBrace (triggered .atEnd)))
  | .symbol .leftBrace => .ok (.between (triggered (.eachRecord none)))
  | _ => beginExpr (.pattern earlier token.place) token

def Mode.take : Mode → Token → Except Wanted State
  | rules earlier, token => beginRule earlier token
  | expect s next, token =>
    if token.kind = .symbol s then .ok (.between next) else .error (.symbol s)
  | statement context, token => beginStatement context token
  | finished s context, token => afterStatement s context token
  | printed args place context, token =>
    if token.kind = .symbol .comma then .ok (.inExpr .start (.printArg args place context))
    else afterStatement (some (.print args place)) context token
  | ifCondition place context, token => beginExpr (.ifCondition place context) token
  | stepped step place slot, token =>
    match token.kind with
    | .name x => .ok (.between (slot.filled (.increment x step .before place)))
    | _ => .error .name
  | named x place slot, token =>
    match step? token.kind, assignment? token.kind with
    | some step, _ => .ok (.between (slot.filled (.increment x step .after place)))
    | none, some op => .ok (.inExpr .start (.assign x op place slot))
    | none, none => .error .other
  | forInit place context, token =>
    if token.kind = .symbol .semicolon then .ok (.between (.forCondition none place context))
    else beginSimple (.forInit place context) token
  | forCondition init place context, token =>
    if token.kind = .symbol .semicolon then .ok (.between (.forUpdate init none place context))
    else beginExpr (.forCondition init place context) token
  | forUpdate init condition place context, token =>
    if token.kind = .symbol .rightParen then
      .ok (.between (loopBody init condition none place context))
    else beginSimple (.forUpdate init condition place context) token

/-- What a token does. A token that ends an expression is taken again by what follows it. -/
def State.take : State → Token → Except Wanted State
  | between mode, token => mode.take token
  | inExpr state purpose, token =>
    match state.take token with
    | .more state => .ok (.inExpr state purpose)
    | .done e => (purpose.served e).take token
    | .wrong wanted => .error wanted

/-- The program that has been read when the script ends between rules, at least one. -/
def State.program? : State → Option Program
  | between (.rules (first :: more)) => some (first :: more)
  | _ => none

theorem beginStatement_eof (context : Context) {token : Token} (h : token.kind = .eof) :
    beginStatement context token = .error .other := by
  simp [beginStatement, h]

theorem afterStatement_eof (s : Option Stmt) (context : Context) {token : Token}
    (h : token.kind = .eof) : afterStatement s context token = .error .other := by
  induction context generalizing s with
  | rule => exact beginStatement_eof _ h
  | block => exact beginStatement_eof _ h
  | thenBranch condition place outer ih => simp [afterStatement, h, ih]
  | elseBranch condition thenBranch place outer ih => exact ih _
  | forBody header place outer ih => exact ih _

theorem beginExpr_eof (purpose : Purpose) {token : Token} (h : token.kind = .eof) :
    beginExpr purpose token = .error .other := by
  simp [beginExpr, ExprReader.takeOperand, h, Except.map]

theorem beginSimple_eof (slot : Slot) {token : Token} (h : token.kind = .eof) :
    beginSimple slot token = .error .name := by
  simp [beginSimple, step?, h]

theorem Mode.take_eof (mode : Mode) {token : Token} (h : token.kind = .eof) :
    ∃ wanted, mode.take token = .error wanted := by
  cases mode <;>
    simp [Mode.take, beginRule, step?, assignment?, beginStatement_eof, afterStatement_eof,
      beginExpr_eof, beginSimple_eof, h]

theorem State.take_eof (state : State) {token : Token} (h : token.kind = .eof) :
    ∃ wanted, state.take token = .error wanted := by
  cases state with
  | between mode => exact mode.take_eof h
  | inExpr state purpose =>
    have refused : ∀ e, ∃ wanted, (purpose.served e).take token = .error wanted :=
      fun e => (purpose.served e).take_eof h
    cases state with
    | operand signs frames =>
      simp [State.take, ExprReader.State.take, ExprReader.takeOperand, h]
    | index place signs frames =>
      simp [State.take, ExprReader.State.take, ExprReader.fieldIndex?, h]
    | operator e frames =>
      simp only [State.take, ExprReader.State.take, ExprReader.takeOperator,
        ExprReader.binaryOp?, h]
      split
      · next more => split at more <;> simp at more
      · exact refused _
      · exact ⟨_, rfl⟩

/-- What is wanted where the end of a script is wrong. -/
def State.wantedAtEnd (state : State) (eof : Token) : Wanted :=
  match state.take eof with
  | .error wanted => wanted
  | .ok _ => .other

/-- Reads on from a state; `eof` is the end of the script. What is left begins with the token that
is wrong, if one is. -/
def read : State → List Token → Token → Except GrammarFault Program × List Token
  | state, [], eof =>
    match state.program? with
    | some program => (.ok program, [])
    | none => (.error ⟨state.wantedAtEnd eof, eof⟩, [])
  | state, token :: rest, eof =>
    match state.take token with
    | .ok next => read next rest eof
    | .error wanted => (.error ⟨wanted, token⟩, token :: rest)

end FieldScript.Reader
