import FieldScript.Location
import FieldScript.Numeric.Number
import FieldScript.Numeric.Shortest

/-!
# Tokens

A token is a literal, a name, a symbol with one fixed spelling, or the end of the script. Reserved
words are symbols too. A message names a token by its kind and text.
-/

namespace FieldScript

inductive Symbol where
  | beginWord | endWord | ifWord | elseWord | forWord | printWord | breakWord
  | plusPlus | minusMinus
  | plusAssign | minusAssign | starAssign | slashAssign | percentAssign
  | lessEqual | greaterEqual | equalEqual | notEqual | andAnd | orOr
  | plus | minus | star | slash | percent | less | greater | assign | bang
  | dollar | leftParen | rightParen | leftBrace | rightBrace | semicolon | comma
  deriving DecidableEq, Repr

namespace Symbol

def lexeme : Symbol → String
  | beginWord => "BEGIN"
  | endWord => "END"
  | ifWord => "if"
  | elseWord => "else"
  | forWord => "for"
  | printWord => "print"
  | breakWord => "break"
  | plusPlus => "++"
  | minusMinus => "--"
  | plusAssign => "+="
  | minusAssign => "-="
  | starAssign => "*="
  | slashAssign => "/="
  | percentAssign => "%="
  | lessEqual => "<="
  | greaterEqual => ">="
  | equalEqual => "=="
  | notEqual => "!="
  | andAnd => "&&"
  | orOr => "||"
  | plus => "+"
  | minus => "-"
  | star => "*"
  | slash => "/"
  | percent => "%"
  | less => "<"
  | greater => ">"
  | assign => "="
  | bang => "!"
  | dollar => "$"
  | leftParen => "("
  | rightParen => ")"
  | leftBrace => "\x7b"
  | rightBrace => "\x7d"
  | semicolon => ";"
  | comma => ","

def reserved : List Symbol :=
  [beginWord, endWord, ifWord, elseWord, forWord, printWord, breakWord]

/-- The symbols that are not words. -/
def operators : List Symbol :=
  [plusPlus, minusMinus, plusAssign, minusAssign, starAssign, slashAssign, percentAssign, lessEqual,
    greaterEqual, equalEqual, notEqual, andAnd, orOr, plus, minus, star, slash, percent, less,
    greater, assign, bang, dollar, leftParen, rightParen, leftBrace, rightBrace, semicolon, comma]

def ofWord? (word : String) : Option Symbol :=
  reserved.find? fun symbol => symbol.lexeme = word

/-- The symbol of this spelling among those that are not words. -/
def ofOperator? (spelling : List Char) : Option Symbol :=
  operators.find? fun symbol => symbol.lexeme.toList = spelling

theorem lexeme_of_ofWord? {word : String} {symbol : Symbol} (h : ofWord? word = some symbol) :
    symbol.lexeme = word := by
  simpa using List.find?_some h

theorem lexeme_of_ofOperator? {spelling : List Char} {symbol : Symbol}
    (h : ofOperator? spelling = some symbol) : symbol.lexeme.toList = spelling := by
  simpa using List.find?_some h

theorem ofWord?_lexeme {symbol : Symbol} (h : symbol ∈ reserved) :
    ofWord? symbol.lexeme = some symbol := by
  revert symbol
  decide +kernel

theorem ofOperator?_lexeme {symbol : Symbol} (h : symbol ∈ operators) :
    ofOperator? symbol.lexeme.toList = some symbol := by
  revert symbol
  decide +kernel

end Symbol

inductive TokenKind where
  | integer (n : Int64)
  | float (x : Float)
  | text (s : String)
  | name (x : String)
  | symbol (s : Symbol)
  | eof
  deriving DecidableEq, Repr

namespace TokenKind

def ofNumber : Number → TokenKind
  | .int n => integer n
  | .float x => float x

/-- The token of a word: a reserved word or a name. -/
def ofWord (word : String) : TokenKind :=
  match Symbol.ofWord? word with
  | some s => symbol s
  | none => name word

def describe : TokenKind → String
  | integer n => "number " ++ toString n.toInt
  | float x => "number " ++ String.ofList (Numeric.shortest x)
  | text s => "string \"" ++ s ++ "\""
  | name x => "identifier '" ++ x ++ "'"
  | symbol s => "'" ++ s.lexeme ++ "'"
  | eof => "end of input"

end TokenKind

structure Token where
  kind : TokenKind
  place : Location
  deriving DecidableEq, Repr

end FieldScript
