import Pseudocode.Expr.Evaluation
import Pseudocode.Expr.Printer
import Pseudocode.Token

/-! # Syntax errors -/

namespace Pseudocode

/-- The deepest nesting of blocks, and of parentheses and unary operators in one expression. -/
def maxNesting : Nat := 128

inductive Expectation where
  | operand
  | closingParen
  | assignment
  | inputVariable
  | statement
  | lineEnd
  | directiveKind
  | number
  deriving DecidableEq, Repr

def Expectation.describe : Expectation → String
  | .operand => "a number, text, variable or '('"
  | .closingParen => "')'"
  | .assignment => "'=' after variable name"
  | .inputVariable => "a variable name after LEER"
  | .statement => "a statement"
  | .lineEnd => "end of line"
  | .directiveKind => "a configuration kind such as COLOR_SI"
  | .number => "a number"

inductive ValueShape where
  | color
  | triple
  | size
  | font
  deriving DecidableEq, Repr

def ValueShape.describe : ValueShape → String
  | .color => "a color like HFF0000"
  | .triple => "three comma-separated numbers"
  | .size => "one positive number"
  | .font => "a font name"

inductive DirectiveProblem where
  | missingValue
  | notEvaluable (e : Expr) (error : EvalError)
  | notANumber (e : Expr)
  | wrongShape (kind : String) (expected : ValueShape) (found : String)
  deriving DecidableEq

def DirectiveProblem.message : DirectiveProblem → String
  | .missingValue => "missing value"
  | .notEvaluable e error => "cannot evaluate " ++ e.render ++ ": " ++ error.message
  | .notANumber e => e.render ++ " is not a number"
  | .wrongShape kind expected found =>
    kind ++ " expects " ++ expected.describe ++ ", found '" ++ found ++ "'"

inductive BlockKind where
  | si
  | sino
  | mientras
  deriving DecidableEq, Repr

namespace BlockKind

def name : BlockKind → String
  | .si => "SI"
  | .sino => "SINO"
  | .mientras => "MIENTRAS"

def terminator : BlockKind → String
  | .si | .sino => "FINSI"
  | .mientras => "FINMIENTRAS"

def closes : BlockKind → Keyword → Bool
  | .si, .finSi | .si, .sino | .sino, .finSi | .mientras, .finMientras => true
  | _, _ => false

end BlockKind

inductive SyntaxError where
  | unexpected (line column : Nat) (expected : Expectation) (found : String)
  | unterminatedBlock (line : Nat) (block : BlockKind)
  | invalidDirective (line : Nat) (problem : DirectiveProblem)
  | tooDeep (line : Nat)
  deriving DecidableEq

def SyntaxError.message : SyntaxError → String
  | .unexpected line column expected found =>
    "Syntax error at line " ++ toString line ++ ", column " ++ toString column ++ ": expected " ++
      expected.describe ++ ", found " ++ found
  | .unterminatedBlock line block =>
    "Syntax error: " ++ block.name ++ " block opened at line " ++ toString line ++
      " is never closed, expected " ++ block.terminator
  | .invalidDirective line problem =>
    "Invalid configuration at line " ++ toString line ++ ": " ++ problem.message
  | .tooDeep line =>
    "Syntax error at line " ++ toString line ++ ": nesting deeper than " ++ toString maxNesting ++
      " levels"

end Pseudocode
