import FieldScript.Text.Paragraph
import FieldScript.Text.Split
import FieldScript.Value.Basic

/-!
# Records and fields

The input is cut into records and each record into fields. A field is referred to by its number,
counted from one; number zero is the whole record, and a number past the last field is empty text.
-/

namespace FieldScript

structure Record where
  line : String
  fields : List String
  deriving DecidableEq, Repr

namespace Record

def start : Record := ⟨"", []⟩

/-- The pieces of an input between record separators; the empty separator cuts paragraphs. -/
def pieces (separator input : String) : List (List Char) :=
  if separator = "" then Text.paragraphs input.toList
  else Text.splitAt separator.toList input.toList

def split (separator input : String) : List String :=
  ((pieces separator input).filter fun piece => !Text.allBlank piece).map String.ofList

/-- The fields of a line. A single space stands for any run of blanks, and the empty separator makes
each character a field. -/
def splitFields (separator line : String) : List String :=
  let pieces :=
    if separator = " " then Text.words line.toList
    else if separator = "" then line.toList.map ([·])
    else Text.splitAt separator.toList line.toList
  pieces.map String.ofList

def ofLine (separator line : String) : Record := ⟨line, splitFields separator line⟩

def fieldAt (record : Record) : Nat → Value
  | 0 => .text record.line
  | n + 1 => (record.fields[n]?).elim (.text "") Value.ofField

end Record

namespace Value

/-- The number that a value has as the index of a field. A text has one when it is digits only, and
a float when it is not below zero; its fraction is dropped, and an infinite one is past all fields,
as a value without a number is. -/
def index? : Value → Option Nat
  | .int n => if 0 ≤ n.toInt then some n.toInt.toNat else none
  | .float x =>
    match Numeric.parts x with
    | .finite negative a => if negative ∧ a.mantissa ≠ 0 then none else some a.truncate
    | _ => none
  | .text s => if Numeric.allDigits s.toList then some (Numeric.digitsValue s.toList) else none

/-- The number of an index as a word of 64 bits. A float that is too large for a word is the largest
one, and digits that are have none. -/
def word? : Value → Option UInt64
  | .int n => if 0 ≤ n.toInt then some n.toUInt64 else none
  | .float x => if 0.0 ≤ x then some x.toUInt64 else none
  | .text s =>
    if Numeric.allDigits s.toList ∧ Numeric.digitsValue s.toList < UInt64.size then
      some (.ofNat (Numeric.digitsValue s.toList))
    else none

end Value

def Record.field (record : Record) (index : Value) : Value :=
  index.index?.elim (.text "") record.fieldAt

/-- The field by the word of a value. There is no result when a field is looked up where there is
none. -/
def Record.fieldOfWord? (record : Record) (index : Value) : Option Value :=
  match index.word? with
  | none => some (.text "")
  | some w =>
    if w = 0 then some (.text record.line)
    else if w.toNat ≤ record.fields.length then (record.fields[(w - 1).toNat]?).map .ofField
    else some (.text "")

end FieldScript
