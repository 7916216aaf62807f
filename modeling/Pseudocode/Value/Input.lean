import Pseudocode.Decimal.Numeral
import Pseudocode.Text.Character
import Pseudocode.Value

/-! # Values typed in

How an answer to an input request becomes a value.
-/

namespace Pseudocode.Value

/-- Whether a text looks like a number: it starts with a digit or a sign and has a digit. -/
def looksNumeric (cs : List Char) : Bool :=
  cs.head?.any (fun c => c.isDigit || c == '-' || c == '+') && cs.any Char.isDigit

def parseDecimal? (cs : List Char) : Option Float :=
  if looksNumeric cs then (Decimal.parseFloat? cs).filter Decimal.isFinite else none

/-- Reads a number: an integer if it is one in range, else a decimal. -/
def parseNumber? (cs : List Char) : Option Value :=
  match Decimal.parseInt64? cs with
  | some n => some (.integer n)
  | none => (parseDecimal? cs).map .decimal

/-- The value of an answer: a truth value or a number, white space around it aside; any other answer
is the text as it was given. -/
def ofInput (raw : String) : Value :=
  match Text.trim raw with
  | "VERDADERO" => .boolean true
  | "FALSO" => .boolean false
  | s => (parseNumber? s.toList).getD (.text raw)

end Pseudocode.Value
