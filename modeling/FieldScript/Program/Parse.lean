import FieldScript.Program.Reader

/-!
# Programs from scripts

A stream is the tokens before the end of a script, and where that end is. Parsing a stream reads a
program up to the end or to the first token that is wrong, and leaves the stream from there on.
-/

namespace FieldScript

structure Stream where
  tokens : List Token
  eof : Location
  deriving DecidableEq, Repr

namespace Stream

/-- The stream of a list of tokens, which is over at the first end of script in it. Where there is
none, it ends at the place of its last token. -/
def ofTokens (tokens : List Token) : Stream :=
  let isEof (token : Token) : Bool := token.kind = .eof
  let last := (tokens.find? isEof).or tokens.getLast?
  ⟨tokens.takeWhile fun token => !isEof token, last.elim .start Token.place⟩

/-- The tokens of a script with its end behind them, unless it is there already. -/
def withEnd (tokens : List Token) : List Token :=
  match tokens.getLast? with
  | some last => if last.kind = .eof then tokens else tokens ++ [⟨.eof, last.place⟩]
  | none => [⟨.eof, .start⟩]

def parse (stream : Stream) : Except GrammarFault Program × Stream :=
  let (result, rest) := Reader.read .start stream.tokens ⟨.eof, stream.eof⟩
  (result, { stream with tokens := rest })

def parseExpression (stream : Stream) : Except GrammarFault Expr × Stream :=
  let (result, rest) := ExprReader.read .start stream.tokens ⟨.eof, stream.eof⟩
  (result, { stream with tokens := rest })

/-- The results of parsing again and again, each time from where the last one stopped. -/
def parseTimes : Nat → Stream → List (Except GrammarFault Program)
  | 0, _ => []
  | n + 1, stream =>
    let (result, rest) := stream.parse
    result :: parseTimes n rest

end Stream

def Program.ofScript (script : String) : Except ScriptFault Program :=
  match tokenize script with
  | .error fault => .error (.lexical fault)
  | .ok tokens =>
    match (Stream.ofTokens tokens).parse.1 with
    | .ok program => .ok program
    | .error fault => .error (.grammar fault)

end FieldScript
