import FieldScript.Numeric.Numeral
import FieldScript.Numeric.Significant
import FieldScript.Text.Blank

/-!
# Values

A value is an integer, a float or a text. Text has a number when it is a plain numeral between
blanks. A field of a record is read when it is used: a text with a point as a wide numeral, any
other as an integer, and as itself where that fails.
-/

namespace FieldScript

inductive Value where
  | int (n : Int64)
  | float (x : Float)
  | text (s : String)
  deriving DecidableEq, Repr

namespace Value

/-- What a variable holds before it is set. -/
def zero : Value := .int 0

instance : Inhabited Value := ⟨zero⟩

def ofBool (b : Bool) : Value := if b then .int 1 else .int 0

def ofNumber : Number → Value
  | .int n => .int n
  | .float x => .float x

/-- The value of a field of a record, or of a variable given as text. -/
def ofField (s : String) : Value :=
  let inner := Text.trim s.toList
  if s.toList.contains '.' then
    match Numeric.readWide inner with
    | some x => .float x
    | none => .text s
  else
    match Numeric.readInteger inner with
    | some n => .int n
    | none => .text s

/-- The numeral that a text holds between blanks. -/
def numeral? (s : String) : Option Numeric.Numeral :=
  Numeric.readNumeral (Text.trim s.toList)

def isNumericText (s : String) : Bool := (numeral? s).isSome

/-- The numeric form of a value, if it has one. -/
def toNumber : Value → Option Number
  | .int n => some (.int n)
  | .float x => some (.float x)
  | .text s => (numeral? s).map Numeric.Numeral.value

def isNumeric : Value → Bool
  | .text _ => false
  | _ => true

/-- Numbers other than zero and texts other than the empty one. -/
def isTruthy : Value → Bool
  | .int n => n != 0
  | .float x => x != 0.0
  | .text s => s != ""

def display : Value → String
  | .int n => toString n.toInt
  | .float x => String.ofList (Numeric.display x)
  | .text s => s

@[simp] theorem toNumber_ofNumber (n : Number) : (ofNumber n).toNumber = some n := by
  cases n <;> rfl

@[simp] theorem toNumber_text (s : String) :
    (Value.text s).toNumber = (numeral? s).map Numeric.Numeral.value := rfl

theorem isSome_toNumber_text (s : String) :
    (Value.text s).toNumber.isSome = isNumericText s := by
  simp [isNumericText]

end Value

end FieldScript
