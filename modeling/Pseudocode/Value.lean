import Pseudocode.Decimal.Layout
import Pseudocode.Text.Quoted

/-! # Values

What an expression evaluates to and a variable holds.
-/

namespace Pseudocode

inductive ValueType where
  | integer
  | decimal
  | boolean
  | text
  deriving DecidableEq, Repr

def ValueType.name : ValueType → String
  | .integer => "ENTERO"
  | .decimal => "DECIMAL"
  | .boolean => "LOGICO"
  | .text => "CADENA"

inductive Value where
  | integer (n : Int64)
  | decimal (d : Float)
  | boolean (b : Bool)
  | text (s : String)
  deriving DecidableEq

namespace Value

def type : Value → ValueType
  | .integer _ => .integer
  | .decimal _ => .decimal
  | .boolean _ => .boolean
  | .text _ => .text

def toFloat? : Value → Option Float
  | .integer n => some (Decimal.ofInt n.toInt)
  | .decimal d => some d
  | _ => none

def render : Value → String
  | .integer n => toString n.toInt
  | .decimal d => Decimal.Layout.literal.render d
  | .boolean true => "VERDADERO"
  | .boolean false => "FALSO"
  | .text s => s

def literal : Value → String
  | .text s => Text.quote s
  | v => v.render

/-- Equality with decimals compared as numbers: the zeros are equal, and NaN differs from itself. -/
def same : Value → Value → Bool
  | .decimal a, .decimal b => a == b
  | a, b => a = b

end Value
end Pseudocode
