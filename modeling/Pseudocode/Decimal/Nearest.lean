/-! # Doubles and rationals

A finite double denotes a signed rational, and every rational has a nearest double. Reading,
printing and the remainder go through these two.
-/

namespace Pseudocode.Decimal

/-- What a double denotes; a zero keeps its sign. -/
inductive Denotation where
  | nan
  | infinite (negative : Bool)
  | finite (negative : Bool) (magnitude : Rat)

/-- Whether a sign bit says that the number is negative. -/
def isNegative : Float.Model.UnpackedFloat.Sign → Bool
  | .negative => true
  | .positive => false

def denote (x : Float) : Denotation :=
  match x.toModel.unpack with
  | .notANumber => .nan
  | .infinity s => .infinite (isNegative s)
  | .zero s => .finite (isNegative s) 0
  | .finite s m e _ => .finite (isNegative s) (m * 2 ^ e)

def signed (negative : Bool) (x : Float) : Float :=
  if negative then -x else x

/-- The double nearest to the magnitude of `q`; of two equally near ones the even one. -/
def nearest (q : Rat) : Float :=
  if h : 0 < q.num.natAbs then
    .ofModel <| .pack <| .div .binary64 (.finite .positive q.num.natAbs 0 h)
      (.finite .positive q.den 0 q.den_pos)
  else 0

def ofInt (n : Int) : Float :=
  signed (n < 0) (nearest n)

def infinity : Float := 1 / 0

def nan : Float := 0 / 0

/-- Whether `x` is neither infinite nor NaN. -/
def isFinite (x : Float) : Bool :=
  match denote x with
  | .finite .. => true
  | _ => false

/-- What is left of `a` after whole multiples of `b` are taken off, with the sign of `a`. -/
def remainder (a b : Float) : Float :=
  match denote a, denote b with
  | .finite negative p, .finite _ q =>
    if q = 0 then nan else signed negative (nearest (p - q * (p / q).floor))
  | .finite .., .infinite _ => a
  | _, _ => nan

end Pseudocode.Decimal
