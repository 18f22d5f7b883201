import FieldScript.CommandLine.Arguments
import FieldScript.Session

/-!
# Running from the command line

The script and the input are found and checked in a fixed order, and the first check that fails is
the one reported. Then a session is made, the field separator and the variables are set, and the
program is run. What was printed before a fault is kept.
-/

namespace FieldScript.CommandLine

inductive Source where
  | file (path : String)
  | standardInput
  deriving DecidableEq, Repr

inductive ReadFault where
  | notFound
  | isDirectory
  | notText
  | other (message : String)
  deriving DecidableEq, Repr

def ReadFault.message : ReadFault → String
  | notFound => "No such file or directory (os error 2)"
  | isDirectory => "Is a directory (os error 21)"
  | notText => "stream did not contain valid UTF-8"
  | other message => message

inductive Failure where
  | programUnread (path : String) (fault : ReadFault)
  | noProgram
  | extraOperand (operand : String)
  | emptyProgram
  | longProgram (size limit : Nat)
  | inputUnread (path : Option String) (fault : ReadFault)
  | longInput (size limit : Nat)
  | invalidProgram (fault : ScriptFault)
  | runtime (fault : RunFault)
  | cutOff
  deriving DecidableEq, Repr

namespace Failure

def cause : Failure → String
  | programUnread path fault => "failed to read program file " ++ path ++ ": " ++ fault.message
  | noProgram => "no program provided"
  | extraOperand operand =>
    "unexpected extra operand '" ++ operand ++ "': only one input file is supported"
  | emptyProgram => "program is empty"
  | longProgram size limit =>
    "program is " ++ toString size ++ " bytes, limit is " ++ toString limit
  | inputUnread (some path) fault => "failed to read input file " ++ path ++ ": " ++ fault.message
  | inputUnread none fault => "failed to read standard input: " ++ fault.message
  | longInput size limit => "input is " ++ toString size ++ " bytes, limit is " ++ toString limit
  | invalidProgram fault => "invalid program: " ++ fault.message
  | runtime fault => "runtime error: " ++ fault.message
  | cutOff => "the run was cut off"

def message (failure : Failure) : String := "tinyawk: " ++ failure.cause ++ "\n"

end Failure

/-- What a command leaves behind. -/
structure Report where
  code : Nat
  stdout : String
  stderr : String
  deriving DecidableEq, Repr

namespace Report

def failed (stdout : String) (failure : Failure) : Report := ⟨2, stdout, failure.message⟩

end Report

def withinLimit (limit : Option Nat) (text : String) (fault : Nat → Nat → Failure) :
    Except Failure Unit :=
  match limit with
  | some limit =>
    let size := text.utf8ByteSize
    if limit < size then .error (fault size limit) else .ok ()
  | none => .ok ()

/-- Where the input comes from, by the operands after the program. -/
def inputSource : List String → Except Failure Source
  | [] => .ok .standardInput
  | [path] => .ok (if path = "-" then .standardInput else .file path)
  | _ :: extra :: _ => .error (.extraOperand extra)

namespace Settings

def checkScript (settings : Settings) (script : String) : Except Failure Unit := do
  if Text.allBlank script.toList then throw .emptyProgram
  withinLimit settings.scriptLimit script .longProgram

def checkInput (settings : Settings) (input : String) : Except Failure Unit :=
  withinLimit settings.inputLimit input .longInput

section

variable {m : Type → Type} [Monad m] (read : Source → m (Except ReadFault String))

def readScript (settings : Settings) : ExceptT Failure m (String × List String) :=
  match settings.programFile, settings.operands with
  | some path, operands => do
    match ← ExceptT.lift (read (.file path)) with
    | .ok script => pure (script, operands)
    | .error fault => throw (.programUnread path fault)
  | none, script :: operands => pure (script, operands)
  | none, [] => throw .noProgram

def readInput (source : Source) : ExceptT Failure m String := do
  match ← ExceptT.lift (read source), source with
  | .ok input, _ => pure input
  | .error fault, .file path => throw (.inputUnread (some path) fault)
  | .error fault, _ => throw (.inputUnread none fault)

/-- The script and the input, each found and checked before the next is looked for. -/
def gather (settings : Settings) : ExceptT Failure m (String × String) := do
  let (script, operands) ← settings.readScript read
  let source ← liftExcept (inputSource operands)
  liftExcept (settings.checkScript script)
  let input ← readInput read source
  liftExcept (settings.checkInput input)
  pure (script, input)
where
  liftExcept {α : Type} (result : Except Failure α) : ExceptT Failure m α :=
    ExceptT.mk (pure result)

end

/-- A session with the separator and then the variables set. -/
def prepare (settings : Settings) (session : Session) : Session :=
  settings.assignments.foldl (fun session (name, value) => session.setVariable name value)
    (settings.separator.elim session session.setSeparator)

def runScript (fuel : Nat) (settings : Settings) (script input : String) : Report :=
  match Session.ofScript script with
  | .error fault => .failed "" (.invalidProgram fault)
  | .ok session =>
    let result := (settings.prepare session).run fuel input none
    let stdout := String.join result.writes
    match result.ending with
    | .normal => ⟨0, stdout, ""⟩
    | .failed fault => .failed stdout (.runtime fault)
    | .broke place => .failed stdout (.runtime (.strayBreak place))
    | .cutOff => .failed stdout .cutOff

def execute {m : Type → Type} [Monad m] (fuel : Nat) (settings : Settings)
    (read : Source → m (Except ReadFault String)) : m Report := do
  match ← (settings.gather read).run with
  | .error failure => pure (.failed "" failure)
  | .ok (script, input) => pure (settings.runScript fuel script input)

end Settings

def versionText : String := "tinyawk 0.1.0\n"

def helpText : String :=
  "A small pattern-action language over records and fields\n\n" ++
    "Usage: tinyawk [OPTIONS] PROGRAM [FILE]\n       tinyawk [OPTIONS] -f PROGFILE [FILE]\n"

def run {m : Type → Type} [Monad m] (fuel : Nat) (arguments : List String)
    (read : Source → m (Except ReadFault String)) : m Report :=
  match request arguments with
  | .error fault => pure ⟨2, "", fault.message⟩
  | .ok .help => pure ⟨0, helpText, ""⟩
  | .ok .version => pure ⟨0, versionText, ""⟩
  | .ok (.run settings) => settings.execute fuel read

end FieldScript.CommandLine
