import FieldScript.Token.Lexer

/-!
# Faults of a script

A script that is no program has a lexical fault, or a token at which no program can go on. The
second kind says what was wanted there, where only one thing was.
-/

namespace FieldScript

/-- What would have been right in place of a token that is wrong. -/
inductive Wanted where
  | other
  | symbol (s : Symbol)
  | name
  | fieldIndex
  deriving DecidableEq, Repr

structure GrammarFault where
  wanted : Wanted
  found : Token
  deriving DecidableEq, Repr

namespace GrammarFault

def detail (fault : GrammarFault) : String :=
  let found := fault.found.kind.describe
  match fault.wanted with
  | .other => "unexpected " ++ found
  | .symbol s => "expected '" ++ s.lexeme ++ "', found " ++ found
  | .name => "expected identifier, found " ++ found
  | .fieldIndex => "expected number or identifier after '$', found " ++ found

def message (fault : GrammarFault) : String :=
  "syntax error at " ++ fault.found.place.describe ++ ": " ++ fault.detail

end GrammarFault

inductive ScriptFault where
  | lexical (fault : LexicalFault)
  | grammar (fault : GrammarFault)
  deriving DecidableEq, Repr

def ScriptFault.message : ScriptFault → String
  | lexical fault => fault.message
  | grammar fault => fault.message

end FieldScript
