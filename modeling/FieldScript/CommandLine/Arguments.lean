import FieldScript.Token.Lexer

/-!
# Command line arguments

Arguments are read from the first to the last. A value may be attached to its option or be the next
argument; the value of an option is looked at when the next option or operand begins, or at the end.
After `--` all arguments are operands.
-/

namespace FieldScript.CommandLine

inductive Opt where
  | programFile
  | separator
  | assignment
  | scriptLimit
  | inputLimit
  deriving DecidableEq, Repr

namespace Opt

def all : List Opt := [programFile, separator, assignment, scriptLimit, inputLimit]

def long : Opt → String
  | programFile => "file"
  | separator => "field-separator"
  | assignment => "assign"
  | scriptLimit => "max-script-bytes"
  | inputLimit => "max-input-bytes"

def short? : Opt → Option Char
  | programFile => some 'f'
  | separator => some 'F'
  | assignment => some 'v'
  | scriptLimit | inputLimit => none

/-- What the value is called in messages. -/
def valueName : Opt → String
  | programFile => "PROGFILE"
  | separator => "FS"
  | assignment => "NAME=VALUE"
  | scriptLimit | inputLimit => "BYTES"

end Opt

inductive Switch where
  | opt (o : Opt)
  | help
  | version
  deriving DecidableEq, Repr

namespace Switch

def ofLong? (name : String) : Option Switch :=
  if name = "help" then some help
  else if name = "version" then some version
  else (Opt.all.find? fun o => o.long = name).map opt

def ofShort? (c : Char) : Option Switch :=
  if c = 'h' then some help
  else if c = 'V' then some version
  else (Opt.all.find? fun o => o.short? = some c).map opt

end Switch

inductive ArgumentFault where
  | malformed
  | invalidValue (o : Opt) (value reason : String)
  deriving DecidableEq, Repr

def ArgumentFault.message : ArgumentFault → String
  | malformed => "usage: tinyawk [OPTIONS] PROGRAM [FILE]"
  | invalidValue o value reason =>
    "error: invalid value '" ++ value ++ "' for '--" ++ o.long ++ " <" ++ o.valueName ++ ">': " ++
      reason

structure Settings where
  programFile : Option String
  separator : Option String
  assignments : List (String × String)
  scriptLimit : Option Nat
  inputLimit : Option Nat
  operands : List String
  deriving DecidableEq, Repr

def Settings.start : Settings := ⟨none, none, [], none, none, []⟩

def isName : List Char → Bool
  | [] => false
  | c :: rest => Lexer.isWordStart c && rest.all Lexer.isWordChar

/-- The name and the value around the first equals sign. -/
def readAssignment (text : String) : Except String (String × String) :=
  let name := text.toList.takeWhile (· ≠ '=')
  match text.toList.dropWhile (· ≠ '=') with
  | [] => .error ("invalid variable assignment '" ++ text ++ "', expected NAME=VALUE")
  | _ :: value =>
    if isName name then .ok (String.ofList name, String.ofList value)
    else .error ("invalid variable name '" ++ String.ofList name ++ "'")

/-- One more than the largest limit. -/
def limitBound : Nat := 18446744073709551616

/-- The value of digits after a number; the first digit too many or other character is the fault. -/
def readDigits (n : Nat) : List Char → Except String Nat
  | [] => .ok n
  | c :: rest =>
    if !c.isDigit then .error "invalid digit found in string"
    else
      let n := 10 * n + (c.toNat - '0'.toNat)
      if n < limitBound then readDigits n rest
      else .error "number too large to fit in target type"

/-- A number of bytes: digits after an optional plus sign. -/
def readLimit (text : String) : Except String Nat :=
  match text.toList with
  | [] => .error "cannot parse integer from empty string"
  | '+' :: c :: rest => readDigits 0 (c :: rest)
  | digits => readDigits 0 digits

namespace Settings

/-- Settings with the value of an option. Only assignments may be repeated, and a file has a
name. -/
def accept (settings : Settings) (o : Opt) (value : String) : Except ArgumentFault Settings :=
  let checked {α : Type} : Except String α → Except ArgumentFault α :=
    Except.mapError (.invalidValue o value)
  match o with
  | .programFile =>
    if settings.programFile.isSome || value = "" then .error .malformed
    else .ok { settings with programFile := some value }
  | .separator =>
    if settings.separator.isSome then .error .malformed
    else .ok { settings with separator := some value }
  | .assignment => do
    let pair ← checked (readAssignment value)
    pure { settings with assignments := settings.assignments ++ [pair] }
  | .scriptLimit =>
    if settings.scriptLimit.isSome then .error .malformed
    else do
      let limit ← checked (readLimit value)
      pure { settings with scriptLimit := some limit }
  | .inputLimit =>
    if settings.inputLimit.isSome then .error .malformed
    else do
      let limit ← checked (readLimit value)
      pure { settings with inputLimit := some limit }

def addOperand (settings : Settings) (operand : String) : Settings :=
  { settings with operands := settings.operands ++ [operand] }

end Settings

/-- An option whose value is to come, or has come and is not looked at yet. -/
inductive Pending where
  | nothing
  | wants (o : Opt)
  | has (o : Opt) (value : String)
  deriving DecidableEq, Repr

/-- Settings with the pending option. -/
def Pending.settle (settings : Settings) : Pending → Except ArgumentFault Settings
  | nothing => .ok settings
  | wants _ => .error .malformed
  | has o value => settings.accept o value

inductive Request where
  | help
  | version
  | run (settings : Settings)
  deriving DecidableEq, Repr

/-- An argument by its shape; an attached value comes with its option. -/
inductive Argument where
  | separatorOfOperands
  | switch (s : Switch) (attached : Option String)
  | unknown
  | operand (text : String)
  deriving DecidableEq, Repr

namespace Argument

def ofLong (text : List Char) : Argument :=
  let name := String.ofList (text.takeWhile (· ≠ '='))
  let attached := (text.dropWhile (· ≠ '=')).tail?.map String.ofList
  match Switch.ofLong? name, attached with
  | some (.opt o), _ => switch (.opt o) attached
  | some s, none => switch s none
  | _, _ => unknown

/-- An equals sign between a short option and its value is left out. -/
def ofShort (c : Char) (rest : List Char) : Argument :=
  match Switch.ofShort? c, rest with
  | none, _ => unknown
  | some s, [] => switch s none
  | some s, '=' :: value => switch s (some (String.ofList value))
  | some s, value => switch s (some (String.ofList value))

/-- A lone dash is an operand. -/
def ofText (text : String) : Argument :=
  match text.toList with
  | ['-', '-'] => separatorOfOperands
  | '-' :: '-' :: rest => ofLong rest
  | '-' :: c :: rest => ofShort c rest
  | _ => operand text

end Argument

def readOperands (settings : Settings) (pending : Pending) :
    List String → Except ArgumentFault Request
  | [] => (pending.settle settings).map .run
  | text :: rest => do
    let settings ← pending.settle settings
    readOperands (settings.addOperand text) .nothing rest

def readArguments (settings : Settings) (pending : Pending) :
    List String → Except ArgumentFault Request
  | [] => (pending.settle settings).map .run
  | text :: rest =>
    match Argument.ofText text, pending with
    | .separatorOfOperands, _ => readOperands settings pending rest
    | .unknown, _ => .error .malformed
    | .operand text, .wants o => readArguments settings (.has o text) rest
    | .operand text, _ => do
      let settings ← pending.settle settings
      readArguments (settings.addOperand text) .nothing rest
    | .switch .help _, _ => (pending.settle settings).map fun _ => .help
    | .switch .version _, _ => (pending.settle settings).map fun _ => .version
    | .switch (.opt o) none, _ => do
      let settings ← pending.settle settings
      readArguments settings (.wants o) rest
    | .switch (.opt o) (some value), _ => do
      let settings ← pending.settle settings
      let settings ← settings.accept o value
      readArguments settings .nothing rest

def request (arguments : List String) : Except ArgumentFault Request :=
  readArguments .start .nothing arguments

end FieldScript.CommandLine
