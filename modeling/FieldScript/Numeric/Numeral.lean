import FieldScript.Numeric.Number

/-!
# Reading numbers

Three grammars share their digits. A plain numeral is a sign, digits and perhaps a point with
further digits. A wide numeral may also leave out the digits on one side of the point and takes an
exponent. An integer is a sign and digits whose value fits 64 bits.
-/

namespace FieldScript.Numeric

def takeSign : List Char → Bool × List Char
  | '-' :: rest => (true, rest)
  | '+' :: rest => (false, rest)
  | text => (false, text)

def digitsValue (digits : List Char) : Nat := Nat.ofDigitChars 10 digits 0

def applySign (negative : Bool) (n : Nat) : Int := if negative then -n else n

def allDigits (text : List Char) : Bool := !text.isEmpty && text.all Char.isDigit

/-- The float nearest to `±mantissa * 10 ^ exponent`. -/
def ofDecimal (negative : Bool) (mantissa : Nat) (exponent : Int) : Float :=
  let x := Float.ofScientific mantissa (exponent < 0) exponent.natAbs
  if negative then -x else x

def readInteger (text : List Char) : Option Int64 :=
  let (negative, digits) := takeSign text
  if allDigits digits then Number.fit (applySign negative (digitsValue digits)) else none

def readSigned (text : List Char) : Option Int :=
  let (negative, digits) := takeSign text
  if allDigits digits then some (applySign negative (digitsValue digits)) else none

/-- Digits with an optional point and further digits, and what follows them. -/
def takeDigits (text : List Char) : List Char × Option (List Char) × List Char :=
  let whole := text.takeWhile Char.isDigit
  match text.dropWhile Char.isDigit with
  | '.' :: rest => (whole, some (rest.takeWhile Char.isDigit), rest.dropWhile Char.isDigit)
  | rest => (whole, none, rest)

def readExponent : List Char → Option Int
  | [] => some 0
  | c :: rest => if c = 'e' ∨ c = 'E' then readSigned rest else none

/-- A wide numeral: at least one digit, on either side of the point. -/
def readWide (text : List Char) : Option Float :=
  let (negative, body) := takeSign text
  let (whole, fraction, rest) := takeDigits body
  let fraction := fraction.getD []
  if whole.isEmpty && fraction.isEmpty then none
  else
    (readExponent rest).map fun exponent =>
      ofDecimal negative (digitsValue (whole ++ fraction)) (exponent - fraction.length)

/-- The parts of a plain numeral; `fraction` is there when the point is. -/
structure Numeral where
  negative : Bool
  whole : List Char
  fraction : Option (List Char)
  deriving DecidableEq, Repr

/-- Without a point an integer where it fits, and a float otherwise. -/
def Numeral.value (n : Numeral) : Number :=
  match n.fraction with
  | some fraction =>
    .float (ofDecimal n.negative (digitsValue (n.whole ++ fraction)) (-fraction.length))
  | none =>
    match Number.fit (applySign n.negative (digitsValue n.whole)) with
    | some w => .int w
    | none => .float (ofDecimal n.negative (digitsValue n.whole) 0)

/-- A plain numeral as the whole of a text. -/
def readNumeral (text : List Char) : Option Numeral :=
  let (negative, body) := takeSign text
  match takeDigits body with
  | (whole, fraction, []) => if whole.isEmpty then none else some ⟨negative, whole, fraction⟩
  | _ => none

def pointed : Option (List Char) → List Char
  | some fraction => '.' :: fraction
  | none => []

theorem takeDigits_append (text : List Char) :
    (takeDigits text).1 ++ pointed (takeDigits text).2.1 ++ (takeDigits text).2.2 = text := by
  simp only [takeDigits]
  have split_eq : text.takeWhile Char.isDigit ++ text.dropWhile Char.isDigit = text :=
    List.takeWhile_append_dropWhile
  split
  · next rest rest_eq => rw [rest_eq] at split_eq; simpa [pointed] using split_eq
  · simp [pointed]

end FieldScript.Numeric
