import Pseudocode.Decimal.Digits

/-! # Numerals

How the text of a number is read: an integer is a run of digits with an optional sign; a decimal may
also have a point and an exponent, or be the word for an infinity or for NaN.
-/

namespace Pseudocode.Decimal

def digitsValue (cs : List Char) : Nat :=
  cs.foldl (fun n c => 10 * n + (c.toNat - '0'.toNat)) 0

def int64? (n : Int) : Option Int64 :=
  if Int64.minValue.toInt ≤ n ∧ n ≤ Int64.maxValue.toInt then some (.ofInt n) else none

def splitSign : List Char → Bool × List Char
  | '-' :: cs => (true, cs)
  | '+' :: cs => (false, cs)
  | cs => (false, cs)

/-- Reads an integer without bounds: an optional sign and digits. -/
def parseInt? (cs : List Char) : Option Int :=
  let (negative, digits) := splitSign cs
  if digits.isEmpty || !digits.all Char.isDigit then none
  else some (if negative then -digitsValue digits else digitsValue digits)

def parseInt64? (cs : List Char) : Option Int64 :=
  (parseInt? cs).bind int64?

def spanDigits (cs : List Char) : List Char × List Char :=
  (cs.takeWhile Char.isDigit, cs.dropWhile Char.isDigit)

def spanFraction : List Char → List Char × List Char
  | '.' :: cs => spanDigits cs
  | cs => ([], cs)

/-- Reads what may follow the digits of a decimal: nothing, or an exponent. -/
def parseExponent? : List Char → Option Int
  | [] => some 0
  | 'e' :: cs | 'E' :: cs => parseInt? cs
  | _ => none

def parseDigits? (cs : List Char) : Option Digits :=
  let (whole, rest) := spanDigits cs
  let (fraction, rest) := spanFraction rest
  if whole.isEmpty && fraction.isEmpty then none
  else (parseExponent? rest).map fun e => ⟨digitsValue (whole ++ fraction), e - fraction.length⟩

/-- Reads an unsigned decimal; the words are read in either case. -/
def parseMagnitude? (cs : List Char) : Option Float :=
  match String.ofList (cs.map Char.toLower) with
  | "inf" | "infinity" => some infinity
  | "nan" => some nan
  | _ => (parseDigits? cs).map Digits.toFloat

def parseFloat? (cs : List Char) : Option Float :=
  let (negative, rest) := splitSign cs
  (parseMagnitude? rest).map (signed negative)

end Pseudocode.Decimal
