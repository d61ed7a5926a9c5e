import ExprMachine.Text.Blank
import ExprMachine.Text.Lines
import ExprMachine.Text.Utf8
import ExprMachine.Text.BreakClass
import ExprMachine.Text.Cluster
import ExprMachine.Text.Backspace
import ExprMachine.Text.ControlSequence
import ExprMachine.Number.Binary64
import ExprMachine.Number.Decimal
import ExprMachine.Number.Numeral
import ExprMachine.Value
import ExprMachine.Heap
import ExprMachine.OpCode
import ExprMachine.LineTable
import ExprMachine.Chunk
import ExprMachine.Listing
import ExprMachine.Token
import ExprMachine.Lexer
import ExprMachine.Diagnostic
import ExprMachine.Literal
import ExprMachine.Expr
import ExprMachine.Expr.Parser
import ExprMachine.Expr.Code
import ExprMachine.Assembly.Quoted
import ExprMachine.Assembly.Statement
import ExprMachine.Assembly
import ExprMachine.Journal
import ExprMachine.Sink
import ExprMachine.Machine.Fault
import ExprMachine.Machine.Step
import ExprMachine.Machine.Run
import ExprMachine.Duration
import ExprMachine.Session
import ExprMachine.Log
import ExprMachine.Machine.Source
import ExprMachine.CommandLine.Arguments
import ExprMachine.CommandLine.Environment
import ExprMachine.CommandLine.FileTree
import ExprMachine.CommandLine.Console
import ExprMachine.CommandLine.History
import ExprMachine.CommandLine
import ExprMachine.Main
import ExprMachine.Proofs.Text
import ExprMachine.Proofs.Number.Rounding
import ExprMachine.Proofs.Number.ReadBack
import ExprMachine.Proofs.LineTable
import ExprMachine.Proofs.Grammar
import ExprMachine.Proofs.Parser.Run
import ExprMachine.Proofs.Parser.Completeness
import ExprMachine.Proofs.Parser.Soundness
import ExprMachine.Proofs.Tokens
import ExprMachine.Proofs.Contents
import ExprMachine.Proofs.PostOrder
import ExprMachine.Proofs.Instruction
import ExprMachine.Proofs.Dispatch
import ExprMachine.Proofs.Forecast
import ExprMachine.Proofs.Evaluation
import ExprMachine.Proofs.Placement
import ExprMachine.Proofs.Preservation
import ExprMachine.Proofs.StackNeed
import ExprMachine.Proofs.Turns
import ExprMachine.Proofs.Allocation
import ExprMachine.Proofs.ValueEquality
import ExprMachine.Proofs.Assembly.Contribution
import ExprMachine.Proofs.Assembly.Quoting
import ExprMachine.Proofs.Assembly.Layout
import ExprMachine.Proofs.Assembly.Rendering
import ExprMachine.Proofs.Assembly.Lines
import ExprMachine.Proofs.Assembly.Strings
import ExprMachine.Proofs.Assembly.Operand
import ExprMachine.Proofs.Denotation
import ExprMachine.Proofs.Independence
import ExprMachine.Proofs.Sweep
import ExprMachine.Proofs.Decoding
import ExprMachine.Proofs.Parser.Beginning
import ExprMachine.Proofs.Parser.Diagnosis
import ExprMachine.Proofs.Parser.LexicalErrors
import ExprMachine.Proofs.Scanner.Pieces
import ExprMachine.Proofs.Scanner.Utf8
import ExprMachine.Proofs.Scanner.Octets
import ExprMachine.Proofs.Scanner.Tiling
import ExprMachine.Proofs.Scanner.Patterns
import ExprMachine.Proofs.Scanner.LongestMatch
import ExprMachine.Proofs.Scanner.Continuation
import ExprMachine.Proofs.HeapHistory
import ExprMachine.Proofs.LineRuns
import ExprMachine.Proofs.Attribution
import ExprMachine.Proofs.Effects
import ExprMachine.Proofs.LimitedOutput
import ExprMachine.Proofs.LineColumn
import ExprMachine.Proofs.Session.Words
import ExprMachine.Proofs.Session.Listings
import ExprMachine.Proofs.Session.Replay
import ExprMachine.Proofs.ListedCode
import ExprMachine.Proofs.Comparisons
import ExprMachine.Proofs.PrintedScalars
import ExprMachine.Proofs.Descent.Domain
