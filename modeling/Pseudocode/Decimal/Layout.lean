import Pseudocode.Decimal.Digits

/-! # Layouts of decimal numbers

A layout says how the shortest digits of a double are written: where positional notation ends, and
what a whole number and an exponent look like.
-/

namespace Pseudocode.Decimal

structure Layout where
  /-- How a choice between two equally near shortest candidates is made. -/
  tie : Tie
  /-- The least power of ten of a first digit that is written without an exponent, if there is one. -/
  lowest : Option Int
  /-- The greatest power of ten of a first digit that is written without an exponent. -/
  highest : Option Int
  /-- A whole number in positional notation ends in `.0`. -/
  fraction : Bool
  /-- A positive exponent carries its sign. -/
  plus : Bool

namespace Layout

/-- Digits only, and a point if the number is not whole. -/
def plain : Layout := ⟨.up, none, none, false, false⟩

/-- A decimal literal of the language: digits on both sides of the point. -/
def literal : Layout := { plain with fraction := true }

/-- A number in a listing of tokens: very large and very small ones have an exponent. -/
def listing : Layout := ⟨.up, some (-4), some 15, true, false⟩

/-- Digits with a point where the power of ten demands it. -/
def positional (l : Layout) (d : Digits) : List Char :=
  let digits := Nat.toDigits 10 d.coefficient
  if 0 ≤ d.exponent then
    digits ++ .replicate d.exponent.toNat '0' ++ (if l.fraction then ['.', '0'] else [])
  else
    let places := (-d.exponent).toNat
    if places < digits.length then
      digits.take (digits.length - places) ++ '.' :: digits.drop (digits.length - places)
    else
      '0' :: '.' :: .replicate (places - digits.length) '0' ++ digits

def scientific (l : Layout) (d : Digits) : List Char :=
  let exponent :=
    (if d.lead < 0 then ['-'] else if l.plus then ['+'] else []) ++ Nat.toDigits 10 d.lead.natAbs
  match Nat.toDigits 10 d.coefficient with
  | [] => []
  | [first] => first :: 'e' :: exponent
  | first :: rest => first :: '.' :: rest ++ 'e' :: exponent

def digits (l : Layout) (d : Digits) : List Char :=
  if l.lowest.any (d.lead < ·) || l.highest.any (· < d.lead) then l.scientific d
  else l.positional d

def render (l : Layout) (x : Float) : String :=
  let sign (negative : Bool) : List Char := if negative then ['-'] else []
  match denote x with
  | .nan => "NaN"
  | .infinite negative => .ofList (sign negative ++ ['i', 'n', 'f'])
  | .finite negative q => .ofList (sign negative ++ l.digits (shortest l.tie q))

end Layout
end Pseudocode.Decimal
