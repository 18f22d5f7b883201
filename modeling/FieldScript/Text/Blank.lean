/-!
# Blank characters

The characters with the Unicode property White_Space, and what is cut at them: the blank ends of a
text, and its words, which are the longest stretches without a blank.
-/

namespace FieldScript.Text

/-- The first and the last code point of each range of White_Space. -/
def blankRanges : List (Nat × Nat) :=
  [(0x09, 0x0D), (0x20, 0x20), (0x85, 0x85), (0xA0, 0xA0), (0x1680, 0x1680), (0x2000, 0x200A),
    (0x2028, 0x2029), (0x202F, 0x202F), (0x205F, 0x205F), (0x3000, 0x3000)]

def isBlank (c : Char) : Bool :=
  blankRanges.any fun range => range.1 ≤ c.toNat && c.toNat ≤ range.2

/-- A text of blanks only, the empty one included. -/
def allBlank (text : List Char) : Bool :=
  text.all isBlank

/-- Drops what satisfies `p` at both ends. -/
def trimBoth (p : Char → Bool) (text : List Char) : List Char :=
  ((text.dropWhile p).reverse.dropWhile p).reverse

def trim (text : List Char) : List Char :=
  trimBoth isBlank text

/-- The pieces between the characters that satisfy `p`, empty pieces included. -/
def piecesBetween (p : Char → Bool) : List Char → List (List Char)
  | [] => [[]]
  | c :: rest =>
    if p c then [] :: piecesBetween p rest else (piecesBetween p rest).modifyHead (c :: ·)

def words (text : List Char) : List (List Char) :=
  (piecesBetween isBlank text).filter fun piece => !piece.isEmpty

@[simp] theorem words_nil : words [] = [] := rfl

theorem words_cons_blank {c : Char} (rest : List Char) (h : isBlank c = true) :
    words (c :: rest) = words rest := by
  simp [words, piecesBetween, h]

end FieldScript.Text
