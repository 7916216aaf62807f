import Pseudocode.Text.Escaped
import Pseudocode.Expr.Printer
import Pseudocode.Expr.Evaluation
import Pseudocode.Path
import Pseudocode.Value.Input
import Pseudocode.Token.Lexer
import Pseudocode.Expr.Parser
import Pseudocode.Instruction.Parser
import Pseudocode.Instruction.Printer
import Pseudocode.Instruction.Listing
import Pseudocode.Program.Source
import Pseudocode.Session
import Pseudocode.View
import Pseudocode.Main
import Pseudocode.Proofs.Session.Refinement
import Pseudocode.Proofs.Expr.Grammar
import Pseudocode.Proofs.Expr.Reading
import Pseudocode.Proofs.Directive.Reading
import Pseudocode.Proofs.Instruction.Grammar
import Pseudocode.Proofs.Instruction.Reading
import Pseudocode.Proofs.Instruction.Acceptance
import Pseudocode.Proofs.Decimal.Canonical
import Pseudocode.Proofs.Decimal.Nearest
import Pseudocode.Proofs.Decimal.Digits
import Pseudocode.Proofs.Decimal.Numeral
import Pseudocode.Proofs.Expr.Printing
import Pseudocode.Proofs.Instruction.Printing
import Pseudocode.Proofs.Program.RoundTrip
import Pseudocode.Proofs.Session.Calls
import Pseudocode.Proofs.Session.Replay
import Pseudocode.Proofs.Program.Validity
import Pseudocode.Proofs.Session.Turns
import Pseudocode.Proofs.Session.Groups
import Pseudocode.Proofs.Session.Cancellation
import Pseudocode.Proofs.Session.Lifecycle
import Pseudocode.Proofs.Session.Location
import Pseudocode.Proofs.Session.Trace
import Pseudocode.Proofs.Session.States
import Pseudocode.Proofs.Session.Dialogue
import Pseudocode.Proofs.Session.Presentation
import Pseudocode.Proofs.Expr.Derivation
import Pseudocode.Proofs.Expr.Typing
import Pseudocode.Proofs.Expr.Remainder
import Pseudocode.Proofs.Instruction.Listing
import Pseudocode.Proofs.Program.Offences
import Pseudocode.Proofs.Session.Current
import Pseudocode.Proofs.Token.Tiling
import Pseudocode.Proofs.Token.Lines
import Pseudocode.Proofs.Program.Expressions
import Pseudocode.Proofs.Program.Height
import Pseudocode.Proofs.Decimal.Comparison
import Pseudocode.Proofs.Program.SameShape
import Pseudocode.Proofs.View.Mirrored
import Pseudocode.Proofs.Session.Mirrored
import Pseudocode.Proofs.Session.Order
import Pseudocode.Proofs.Session.Termination
import Pseudocode.Proofs.CommandLine.Play
import Pseudocode.Proofs.Path
import Pseudocode.Proofs.Directive.Grammar
import Pseudocode.Proofs.Instruction.Directives
import Pseudocode.Proofs.Token.Relexing
import Pseudocode.Proofs.Token.Spacing
import Pseudocode.Proofs.Directive.Index
import Pseudocode.Proofs.Directive.Adjacent
import Pseudocode.Proofs.Directive.Spelled
import Pseudocode.Proofs.Directive.Printing
import Pseudocode.Proofs.Program.Names
import Pseudocode.Proofs.Decimal.Negation
import Pseudocode.Proofs.Session.Failures
import Pseudocode.Proofs.Directive.Values
import Pseudocode.Proofs.Decimal.Range
import Pseudocode.Proofs.Directive.Styles
import Pseudocode.Proofs.Token.Literals
import Pseudocode.Proofs.Decimal.Order
import Pseudocode.Proofs.Expr.Comparison
import Pseudocode.Proofs.Expr.Substitution
import Pseudocode.Proofs.Program.Targets
import Pseudocode.Proofs.Program.Style
import Pseudocode.Proofs.Program.Lines
import Pseudocode.Proofs.Expr.Places
import Pseudocode.Proofs.View.Report
import Pseudocode.Proofs.Token.Respacing
import Pseudocode.Proofs.Expr.Shortest
import Pseudocode.Proofs.Instruction.Layout
import Pseudocode.Proofs.Program.Outline
import Pseudocode.Proofs.Instruction.Hoisting
import Pseudocode.Proofs.Decimal.Integers
import Pseudocode.Proofs.Path.Printing
import Pseudocode.Proofs.Value.Input
import Pseudocode.Proofs.Value.Literals
import Pseudocode.Proofs.Value.Signs
import Pseudocode.Proofs.Token.Quoted
import Pseudocode.Proofs.Session.Stack
import Pseudocode.Proofs.Cursor.Program
