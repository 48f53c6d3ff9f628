import MiniPascal.Text.Position
import MiniPascal.Text.Lines
import MiniPascal.Number.Binary
import MiniPascal.Number.Nearest
import MiniPascal.Number.Shortest
import MiniPascal.Number.RealText
import MiniPascal.Number.Integer
import MiniPascal.Value
import MiniPascal.Token
import MiniPascal.Token.Piece
import MiniPascal.Token.Scanner
import MiniPascal.Program
import MiniPascal.Fault
import MiniPascal.Grammar.Rule
import MiniPascal.Grammar.Expression
import MiniPascal.Grammar.Block
import MiniPascal.Grammar.Program
import MiniPascal.Table
import MiniPascal.Scope.Symbol
import MiniPascal.Event
import MiniPascal.Scope.Live
import MiniPascal.Scope.Walk
import MiniPascal.Check
import MiniPascal.Annotate
import MiniPascal.Arithmetic
import MiniPascal.Execution
import MiniPascal.Report
import MiniPascal.Command
import MiniPascal.Main
import MiniPascal.Proofs.Action
import MiniPascal.Proofs.Script
import MiniPascal.Proofs.Grammar.Production
import MiniPascal.Proofs.Grammar.Wording
import MiniPascal.Proofs.Grammar.Cursor
import MiniPascal.Proofs.Grammar.Reading
import MiniPascal.Proofs.Grammar.Repetition
import MiniPascal.Proofs.Grammar.Expression
import MiniPascal.Proofs.Grammar.Statement
import MiniPascal.Proofs.Grammar.Declaration
import MiniPascal.Proofs.Grammar.Parsing
import MiniPascal.Proofs.Grammar.Derivation
import MiniPascal.Proofs.Grammar.Recognition
import MiniPascal.Proofs.Token.Cutting
import MiniPascal.Proofs.Token.Shape
import MiniPascal.Proofs.Scope.Types
import MiniPascal.Proofs.Annotation.Erasure
import MiniPascal.Proofs.Annotation.Layout
import MiniPascal.Proofs.Annotation.Likeness
import MiniPascal.Proofs.Annotation.Body
import MiniPascal.Proofs.Annotation.RoundTrip
import MiniPascal.Proofs.Nesting.Depth
import MiniPascal.Proofs.Nesting.Room
import MiniPascal.Proofs.Nesting.Excess
import MiniPascal.Proofs.Scope.Environment
import MiniPascal.Proofs.Scope.Scoping
import MiniPascal.Proofs.Scope.Following
import MiniPascal.Proofs.Scope.Walking
import MiniPascal.Proofs.Scope.Agreement
import MiniPascal.Proofs.Annotation.Written
import MiniPascal.Proofs.Scope.Checking
import MiniPascal.Proofs.Annotation.Row
import MiniPascal.Proofs.Annotation.Sighting
import MiniPascal.Proofs.Annotation.Occurrence
import MiniPascal.Proofs.Annotation.Level
import MiniPascal.Proofs.Annotation.Placement
import MiniPascal.Proofs.Annotation.Alike
import MiniPascal.Proofs.Nesting.Limit
import MiniPascal.Proofs.Nesting.Routine
import MiniPascal.Proofs.Nesting.Stepwise
import MiniPascal.Proofs.Nesting.Balance
import MiniPascal.Proofs.Number.Finite
import MiniPascal.Proofs.Token.Division
import MiniPascal.Proofs.Token.Calls
import MiniPascal.Proofs.Token.Offset
import MiniPascal.Proofs.Token.Place
import MiniPascal.Proofs.Execution.Ordered
import MiniPascal.Proofs.Execution.History
import MiniPascal.Proofs.Execution.Assignments
import MiniPascal.Proofs.Execution.Keyed
import MiniPascal.Proofs.Execution.Unlined
import MiniPascal.Proofs.Execution.Faithful
import MiniPascal.Proofs.Token.LetterCase
import MiniPascal.Proofs.Scope.Renaming
import MiniPascal.Proofs.Execution.Renaming
import MiniPascal.Proofs.Scope.Operation
import MiniPascal.Proofs.Scope.Plan
import MiniPascal.Proofs.Scope.Arena
import MiniPascal.Proofs.Scope.Planned
import MiniPascal.Proofs.Scope.Nesting
import MiniPascal.Proofs.Scope.Visiting
import MiniPascal.Proofs.Scope.Teardown
import MiniPascal.Proofs.Scope.Effect
import MiniPascal.Proofs.Grammar.Vocabulary
import MiniPascal.Proofs.Scope.Contract
import MiniPascal.Proofs.Scope.Opening
import MiniPascal.Proofs.Scope.Separation
import MiniPascal.Proofs.Number.Quotient
import MiniPascal.Proofs.Execution.Exact
import MiniPascal.Proofs.Number.Exactness
import MiniPascal.Proofs.Execution.Progress
import MiniPascal.Proofs.Execution.Kind
import MiniPascal.Proofs.Execution.Refusal
import MiniPascal.Proofs.Execution.Undefined
import MiniPascal.Proofs.Execution.Independence
import MiniPascal.Proofs.Token.Printing
import MiniPascal.Proofs.Token.Ending
import MiniPascal.Proofs.Number.Rounding
import MiniPascal.Proofs.Number.Shortest
import MiniPascal.Proofs.Number.RealText
import MiniPascal.Proofs.Annotation.Parentheses
import MiniPascal.Proofs.Annotation.Redundancy
