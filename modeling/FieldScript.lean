import FieldScript.CommandLine.Arguments
import FieldScript.CommandLine.Run
import FieldScript.Eval.Expr
import FieldScript.Eval.Stmt
import FieldScript.Eval.World
import FieldScript.Location
import FieldScript.Main
import FieldScript.Numeric.Decimal
import FieldScript.Numeric.Number
import FieldScript.Numeric.Numeral
import FieldScript.Numeric.Parts
import FieldScript.Numeric.Shortest
import FieldScript.Numeric.Significant
import FieldScript.Program.Basic
import FieldScript.Program.Descent
import FieldScript.Program.ExprReader
import FieldScript.Program.Fault
import FieldScript.Program.Parse
import FieldScript.Program.Reader
import FieldScript.Proofs.CommandLine.Gate
import FieldScript.Proofs.CommandLine.Names
import FieldScript.Proofs.Eval.Congruence
import FieldScript.Proofs.Eval.Course
import FieldScript.Proofs.Eval.FieldAccess
import FieldScript.Proofs.Eval.FieldWords
import FieldScript.Proofs.Eval.Fuel
import FieldScript.Proofs.Eval.Invariant
import FieldScript.Proofs.Eval.Loop
import FieldScript.Proofs.Eval.Steps
import FieldScript.Proofs.Eval.Strictness
import FieldScript.Proofs.Eval.Updates
import FieldScript.Proofs.Numeric.DecimalText
import FieldScript.Proofs.Numeric.Digits
import FieldScript.Proofs.Numeric.Display
import FieldScript.Proofs.Numeric.Order
import FieldScript.Proofs.Numeric.Plain
import FieldScript.Proofs.Numeric.SixDigits
import FieldScript.Proofs.Numeric.Zero
import FieldScript.Proofs.Program.Actions
import FieldScript.Proofs.Program.Calls
import FieldScript.Proofs.Program.Completion
import FieldScript.Proofs.Program.Concatenation
import FieldScript.Proofs.Program.Consumed
import FieldScript.Proofs.Program.CorrectPrefix
import FieldScript.Proofs.Program.DescentExpr
import FieldScript.Proofs.Program.DescentFuel
import FieldScript.Proofs.Program.DescentRules
import FieldScript.Proofs.Program.DescentStmt
import FieldScript.Proofs.Program.ExtraSemicolons
import FieldScript.Proofs.Program.Gathered
import FieldScript.Proofs.Program.Grammar
import FieldScript.Proofs.Program.Moved
import FieldScript.Proofs.Program.Precedence
import FieldScript.Proofs.Program.Relocation
import FieldScript.Proofs.Program.RenderedParts
import FieldScript.Proofs.Program.Rendering
import FieldScript.Proofs.Program.RoundTrip
import FieldScript.Proofs.Program.Run
import FieldScript.Proofs.Program.Spelling
import FieldScript.Proofs.Program.WellFormed
import FieldScript.Proofs.Session.Breaks
import FieldScript.Proofs.Session.Causality
import FieldScript.Proofs.Session.Counters
import FieldScript.Proofs.Session.CountingLoop
import FieldScript.Proofs.Session.CurrentRecord
import FieldScript.Proofs.Session.Flattening
import FieldScript.Proofs.Session.Pieces
import FieldScript.Proofs.Session.Relevance
import FieldScript.Proofs.Session.SinkRoom
import FieldScript.Proofs.Text.Cutting
import FieldScript.Proofs.Text.Paragraphs
import FieldScript.Proofs.Text.Rejoin
import FieldScript.Proofs.Text.Runs
import FieldScript.Proofs.Token.Apart
import FieldScript.Proofs.Token.Fault
import FieldScript.Proofs.Token.Gap
import FieldScript.Proofs.Token.Lexeme
import FieldScript.Proofs.Token.Localisation
import FieldScript.Proofs.Token.Repetition
import FieldScript.Proofs.Token.Tiling
import FieldScript.Proofs.Token.Written
import FieldScript.Proofs.Value.Comparison
import FieldScript.Proofs.Value.Exactness
import FieldScript.Proofs.Value.NumberReaders
import FieldScript.Record
import FieldScript.Session
import FieldScript.Store
import FieldScript.Text.Blank
import FieldScript.Text.Paragraph
import FieldScript.Text.Split
import FieldScript.Token.Basic
import FieldScript.Token.Lexer
import FieldScript.Value.Arithmetic
import FieldScript.Value.Basic
import FieldScript.Value.Comparison
