import FieldScript.Program.Parse

/-!
# Parsing by descent

A parser by descent holds all tokens of a script and a cursor among them, and has one function for
each kind of statement and for each level of operators. A function looks at the token under the
cursor, goes forward over it where it is right, and calls the functions of its parts. Behind the
branch of an `if` it goes over semicolons, and back again where no `else` follows. It does not ask
whether there is a token under the cursor. Loops, and calls inside of calls, are cut off at a bound.
-/

namespace FieldScript

namespace Descent

/-- What stops a parser: a token that is wrong, or a cursor with no token under it. -/
inductive Halt where
  | wrong (fault : GrammarFault)
  | outside
  deriving DecidableEq, Repr

/-- A position among tokens, and those left for it, the latest first. -/
structure Cursor where
  position : Nat
  passed : List Nat
  deriving DecidableEq, Repr

def Cursor.moveTo (cursor : Cursor) (position : Nat) : Cursor :=
  ⟨position, cursor.position :: cursor.passed⟩

/-- Reads the tokens and moves the cursor, whatever the result. There is none when it is cut off. -/
abbrev Parser := ReaderT (List Token) (ExceptT Halt (StateT Cursor Option))

def cutOff {α : Type} : Parser α := fun _ _ => none

def current : Parser Token := do
  match (← read)[(← get).position]? with
  | some token => return token
  | none => throw .outside

def isAtEnd : Parser Bool := do
  return (← current).kind = .eof

/-- Goes over one token, but not over the end of a script. -/
def advance : Parser Unit := do
  unless ← isAtEnd do
    modify fun cursor => cursor.moveTo (cursor.position + 1)

def check (s : Symbol) : Parser Bool := do
  return (← current).kind = .symbol s

def accept (s : Symbol) : Parser Bool := do
  if ← check s then
    advance
    return true
  else
    return false

def fail {α : Type} (wanted : Wanted) : Parser α := do
  throw (.wrong ⟨wanted, ← current⟩)

def expect (s : Symbol) : Parser Unit := do
  if ← check s then advance else fail (.symbol s)

def expectName : Parser String := do
  match (← current).kind with
  | .name x =>
    advance
    return x
  | _ => fail .name

/-! ## Expressions -/

/-- The levels of binary operators, the loosest first. -/
inductive Level where
  | or | and | equality | comparison | additive | multiplicative
  deriving DecidableEq, Repr

def Level.operators : Level → List (Symbol × BinaryOp)
  | or => [(.orOr, .or)]
  | and => [(.andAnd, .and)]
  | equality => [(.equalEqual, .relation .equal), (.notEqual, .relation .notEqual)]
  | comparison =>
    [(.less, .relation .less), (.lessEqual, .relation .lessEqual),
      (.greater, .relation .greater), (.greaterEqual, .relation .greaterEqual)]
  | additive => [(.plus, .arith .add), (.minus, .arith .subtract)]
  | multiplicative =>
    [(.star, .arith .multiply), (.slash, .arith .divide), (.percent, .arith .modulo)]

def Level.operator? (level : Level) (token : Token) : Option BinaryOp :=
  (level.operators.find? fun entry => token.kind = .symbol entry.1).map Prod.snd

/-- Operators of a level behind their left operand, grouped from the left. -/
def parseOperators (level : Level) (operand : Parser Expr) : Nat → Expr → Parser Expr
  | 0, _ => cutOff
  | fuel + 1, left => do
    let token ← current
    match level.operator? token with
    | some op =>
      advance
      let right ← operand
      parseOperators level operand fuel (.binary op left right token.place)
    | none => return left

def parseLevel (fuel : Nat) (level : Level) (operand : Parser Expr) : Parser Expr := do
  let left ← operand
  parseOperators level operand fuel left

/-- The operands of each level are the expressions of the next one. -/
def parseLevels (fuel : Nat) (operand : Parser Expr) : Parser Expr :=
  parseLevel fuel .or <| parseLevel fuel .and <| parseLevel fuel .equality <|
    parseLevel fuel .comparison <| parseLevel fuel .additive <|
      parseLevel fuel .multiplicative operand

def parseFieldIndex : Parser FieldIndex := do
  match ExprReader.fieldIndex? (← current) with
  | some index =>
    advance
    return index
  | none => fail .fieldIndex

/-- The operand that is a token by itself. -/
def operand? (token : Token) : Option Expr :=
  match token.kind with
  | .integer n => some (.literal (.int n) token.place)
  | .float x => some (.literal (.float x) token.place)
  | .text s => some (.literal (.text s) token.place)
  | .name x => some (.var x token.place)
  | _ => none

/-- An operand without a sign; `inner` is for what stands in parentheses. -/
def parsePrimary (inner : Parser Expr) : Parser Expr := do
  let token ← current
  match operand? token with
  | some e =>
    advance
    return e
  | none =>
    if ← accept .dollar then
      let index ← parseFieldIndex
      return .field index token.place
    else if ← accept .leftParen then
      let e ← inner
      expect .rightParen
      return e
    else
      fail .other

def parseNegation (operand inner : Parser Expr) : Parser Expr := do
  let token ← current
  if ← accept .minus then
    let e ← operand
    return .unary .negate e token.place
  else
    parsePrimary inner

/-- An operand with its signs. -/
def parseNot : Nat → Parser Expr
  | 0 => cutOff
  | fuel + 1 => do
    let token ← current
    if ← accept .bang then
      let e ← parseNot fuel
      return .unary .not e token.place
    else
      parseNegation (parseNot fuel) (parseLevels fuel (parseNot fuel))

def parseExpr (fuel : Nat) : Parser Expr := parseLevels fuel (parseNot fuel)

/-! ## Statements -/

def acceptStep : Parser (Option Step) := do
  if ← accept .plusPlus then
    return some .up
  else if ← accept .minusMinus then
    return some .down
  else
    return none

/-- What makes a name an increment or an assignment. -/
def parseUpdate (fuel : Nat) (x : String) (place : Location) : Parser Simple := do
  match ← acceptStep with
  | some step => return .increment x step .after place
  | none =>
    let token ← current
    match Reader.assignment? token.kind with
    | some op =>
      advance
      let e ← parseExpr fuel
      return .assign x op e place
    | none => fail .other

def parseSimple (fuel : Nat) : Parser Simple := do
  let token ← current
  match ← acceptStep with
  | some step =>
    let x ← expectName
    return .increment x step .before token.place
  | none =>
    let x ← expectName
    parseUpdate fuel x token.place

def parseArgs : Nat → List Expr → Parser (List Expr)
  | 0, _ => cutOff
  | fuel + 1, before => do
    if ← accept .comma then
      let e ← parseExpr fuel
      parseArgs fuel (before ++ [e])
    else
      return before

def parsePrint (fuel : Nat) (place : Location) : Parser Stmt := do
  expect .printWord
  let first ← parseExpr fuel
  let args ← parseArgs fuel [first]
  return .print args place

def skipSemicolons : Nat → Parser Unit
  | 0 => cutOff
  | fuel + 1 => do
    if ← accept .semicolon then skipSemicolons fuel else return ()

/-- Goes over semicolons and the `else` behind them, or not at all where there is none. -/
def acceptElse (fuel : Nat) : Parser Bool := do
  let saved := (← get).position
  skipSemicolons fuel
  if ← accept .elseWord then
    return true
  else
    modify fun cursor => cursor.moveTo saved
    return false

/-- A part that is absent where the symbol behind it comes at once. -/
def parseUnless {α : Type} (s : Symbol) (part : Parser α) : Parser (Option α) := do
  if ← check s then
    return none
  else
    let a ← part
    return some a

def parseUpTo {α : Type} (s : Symbol) (part : Parser α) : Parser (Option α) := do
  let a ← parseUnless s part
  expect s
  return a

def parseHeader (fuel : Nat) : Parser LoopHeader := do
  expect .leftParen
  let init ← parseUpTo .semicolon (parseSimple fuel)
  let condition ← parseUpTo .semicolon (parseExpr fuel)
  let update ← parseUpTo .rightParen (parseSimple fuel)
  return ⟨init, condition, update⟩

section

variable (statement : Parser (Option Stmt))

/-- Statements up to a closing brace. -/
def parseStatements : Nat → List Stmt → Parser (List Stmt)
  | 0, _ => cutOff
  | fuel + 1, before => do
    if ← check .rightBrace then
      return before
    else if ← isAtEnd then
      fail .other
    else
      let s ← statement
      parseStatements fuel (before ++ s.toList)

def parseBraced (fuel : Nat) : Parser (List Stmt) := do
  expect .leftBrace
  let body ← parseStatements statement fuel []
  expect .rightBrace
  return body

def parseIf (fuel : Nat) (place : Location) : Parser Stmt := do
  expect .ifWord
  expect .leftParen
  let condition ← parseExpr fuel
  expect .rightParen
  let branch ← statement
  if ← acceptElse fuel then
    let other ← statement
    return .ifElse condition branch.toList (some other.toList) place
  else
    return .ifElse condition branch.toList none place

def parseFor (fuel : Nat) (place : Location) : Parser Stmt := do
  expect .forWord
  let header ← parseHeader fuel
  let s ← statement
  return .forLoop header (Reader.bodyOf s) place

end

/-- A statement; a semicolon alone is none. -/
def parseStatement : Nat → Parser (Option Stmt)
  | 0 => cutOff
  | fuel + 1 => do
    let token ← current
    match token.kind with
    | .symbol .semicolon =>
      advance
      return none
    | .symbol .leftBrace =>
      let body ← parseBraced (parseStatement fuel) fuel
      return some (.block body token.place)
    | .symbol .ifWord =>
      let s ← parseIf (parseStatement fuel) fuel token.place
      return some s
    | .symbol .forWord =>
      let s ← parseFor (parseStatement fuel) fuel token.place
      return some s
    | .symbol .breakWord =>
      advance
      expect .semicolon
      return some (.breakLoop token.place)
    | .symbol .printWord =>
      let s ← parsePrint fuel token.place
      return some s
    | .symbol .plusPlus | .symbol .minusMinus | .name _ =>
      let s ← parseSimple fuel
      return some (.simple s)
    | _ => fail .other

/-! ## Programs -/

def parseRule (fuel : Nat) : Parser Rule := do
  let token ← current
  if ← accept .beginWord then
    let body ← parseBraced (parseStatement fuel) fuel
    return ⟨.atStart, body, token.place⟩
  else if ← accept .endWord then
    let body ← parseBraced (parseStatement fuel) fuel
    return ⟨.atEnd, body, token.place⟩
  else
    let pattern ← parseUnless .leftBrace (parseExpr fuel)
    let body ← parseBraced (parseStatement fuel) fuel
    return ⟨.eachRecord pattern, body, token.place⟩

/-- Rules up to the end of the script, at least one. -/
def parseRules (rule : Parser Rule) : Nat → List Rule → Parser Program
  | 0, _ => cutOff
  | fuel + 1, before => do
    let next ← rule
    if ← isAtEnd then
      return before ++ [next]
    else
      parseRules rule fuel (before ++ [next])

def parseProgram (fuel : Nat) : Parser Program := parseRules (parseRule fuel) fuel []

/-- One call of a parser: where the cursor stood before it, what came of it, the positions that the
cursor left on its way, the latest first, and where it stood in the end. -/
structure Call where
  start : Nat
  result : Except Halt Program
  passed : List Nat
  stop : Nat

def callAt (fuel : Nat) (tokens : List Token) (start : Nat) : Option Call := do
  let (result, cursor) ← parseProgram fuel tokens ⟨start, []⟩
  return ⟨start, result, cursor.passed, cursor.position⟩

/-- Calls of one parser, each from where the last one stopped. -/
def callsAt (fuel : Nat) (tokens : List Token) : Nat → Nat → Option (List Call)
  | 0, _ => some []
  | n + 1, start => do
    let first ← callAt fuel tokens start
    let others ← callsAt fuel tokens n first.stop
    return first :: others

/-- Calls of a parser that is given these tokens, from the first one on. -/
def calls (fuel : Nat) (tokens : List Token) (n : Nat) : Option (List Call) :=
  callsAt fuel (Stream.withEnd tokens) n 0

end Descent

end FieldScript
