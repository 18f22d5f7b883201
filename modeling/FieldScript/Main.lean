import FieldScript.CommandLine.Run

/-!
# The command

Reads files and standard input, and prints what the command reports.
-/

open FieldScript CommandLine

/-- A bound on the passes of a loop that no run meets. -/
def passBound : Nat := 4611686018427387904

def decodeText (bytes : ByteArray) : Except ReadFault String :=
  match String.fromUTF8? bytes with
  | some text => .ok text
  | none => .error .notText

def readSource (source : Source) : IO (Except ReadFault String) :=
  match source with
  | .file path => do
    try
      return decodeText (← IO.FS.readBinFile path)
    catch
      | .noFileOrDirectory .. => return .error .notFound
      | .inappropriateType .. => return .error .isDirectory
      | e => return .error (.other (toString e))
  | .standardInput => do
    let input ← IO.getStdin
    return decodeText (← input.readBinToEnd)

def main (arguments : List String) : IO UInt32 := do
  let report ← CommandLine.run passBound arguments readSource
  IO.print report.stdout
  IO.eprint report.stderr
  return report.code.toUInt32
