/-!
# Places in a script

A location counts lines and columns from one, a column being one character. Reading a stretch of
text moves the location over it, so the location of any later character is fixed by the characters
before it alone.
-/

namespace FieldScript

structure Location where
  line : Nat
  column : Nat
  deriving DecidableEq, Repr

namespace Location

def start : Location := ⟨1, 1⟩

/-- A newline begins the next line; every other character, a tab too, is one column wide. -/
def step (place : Location) (c : Char) : Location :=
  if c = '\n' then ⟨place.line + 1, 1⟩ else ⟨place.line, place.column + 1⟩

def advance (place : Location) (text : List Char) : Location :=
  text.foldl step place

@[simp] theorem advance_nil (place : Location) : place.advance [] = place := rfl

@[simp] theorem advance_cons (place : Location) (c : Char) (text : List Char) :
    place.advance (c :: text) = (place.step c).advance text := rfl

theorem advance_append (place : Location) (a b : List Char) :
    place.advance (a ++ b) = (place.advance a).advance b :=
  List.foldl_append

def describe (place : Location) : String :=
  "line " ++ toString place.line ++ ", column " ++ toString place.column

end Location

end FieldScript
