import Pseudocode.Decimal.Nearest

/-! # Decimal digits

The digits of a decimal numeral: a coefficient and a power of ten. The shortest digits of a double
are the fewest that have it as their nearest double.
-/

namespace Pseudocode.Decimal

/-- The number `coefficient · 10 ^ exponent`. -/
structure Digits where
  coefficient : Nat
  exponent : Int
  deriving DecidableEq, Repr

def width (n : Nat) : Nat :=
  (Nat.toDigits 10 n).length

namespace Digits

def toRat (d : Digits) : Rat :=
  d.coefficient * 10 ^ d.exponent

/-- The power of ten of the first digit. -/
def lead (d : Digits) : Int :=
  width d.coefficient - 1 + d.exponent

/-- The double nearest to the digits; those far outside the range of doubles need no arithmetic. -/
def toFloat (d : Digits) : Float :=
  if d.coefficient = 0 then 0
  else if 400 < d.exponent then infinity
  else if d.lead < -400 then 0
  else nearest d.toRat

def trim (d : Digits) : Digits :=
  if h : d.coefficient ≠ 0 ∧ d.coefficient % 10 = 0 then
    trim ⟨d.coefficient / 10, d.exponent + 1⟩
  else d
termination_by d.coefficient
decreasing_by exact Nat.div_lt_self (Nat.pos_of_ne_zero h.1) (by decide)

end Digits

/-- Which of two equally near candidates is taken: the larger one, or the one with an even last
digit. -/
inductive Tie where
  | up
  | even
  deriving DecidableEq, Repr

def leadOf (q : Rat) : Int :=
  if 1 ≤ q then width q.floor.toNat - 1 else -width ((q.den - 1) / q.num.toNat)

/-- The multiple of `10 ^ k` next to `q` that has `x` as its nearest double; of two such the one
nearer to `q`. -/
def onGrid (tie : Tie) (q : Rat) (x : Float) (k : Int) : Option Digits :=
  let scaled := q * 10 ^ (-k)
  let below : Digits := ⟨scaled.floor.toNat, k⟩
  let above : Digits := ⟨below.coefficient + 1, k⟩
  let doubled := 2 * (scaled - scaled.floor)
  let takesAbove : Bool := match tie with
    | .up => 1 ≤ doubled
    | .even => 1 < doubled || (doubled = 1 && below.coefficient % 2 = 1)
  match decide (nearest below.toRat = x), decide (nearest above.toRat = x) with
  | true, true => some (if takesAbove then above else below)
  | true, false => some below
  | false, true => some above
  | false, false => none

def exact (q : Rat) : Digits :=
  ⟨q.num.natAbs * Nat.pow 5 q.den.log2, -q.den.log2⟩

/-- The fewest digits that have the same nearest double as `q`, the magnitude of a double. -/
def shortest (tie : Tie) (q : Rat) : Digits :=
  if q = 0 then ⟨0, 0⟩
  else
    let x := nearest q
    let lead := leadOf q
    (((List.range 17).findSome? fun (n : Nat) => onGrid tie q x (lead - n)).getD (exact q)).trim

end Pseudocode.Decimal
