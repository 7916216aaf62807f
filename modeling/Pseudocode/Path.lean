import Pseudocode.Decimal.Numeral
import Pseudocode.Text.Character

/-! # Paths

A path addresses an instruction: `2` is the second instruction of the program, `2.1` the first one
inside it.
-/

namespace Pseudocode

/-- Positions, counted from one, from the outside in. -/
structure Path where
  positions : List Nat
  deriving DecidableEq, Repr

namespace Path

/-- The path of the program itself. -/
def root : Path := ⟨[]⟩

def child (p : Path) (position : Nat) : Path :=
  ⟨p.positions ++ [position]⟩

def depth (p : Path) : Nat :=
  p.positions.length

def render (p : Path) : String :=
  ".".intercalate (p.positions.map toString)

/-- Positions are below this bound, the number of 64-bit words. -/
def positionBound : Nat := 18446744073709551616

/-- Reads a position: digits, of a positive value below the bound. -/
def parsePosition? (cs : List Char) : Option Nat :=
  if cs.isEmpty || !cs.all Char.isDigit then none
  else
    let n := Decimal.digitsValue cs
    if 0 < n ∧ n < positionBound then some n else none

def parse? (s : String) : Option Path :=
  ((Text.fields '.' s.toList).mapM parsePosition?).map Path.mk

instance : LT Path := ⟨fun p q => p.positions < q.positions⟩

instance (p q : Path) : Decidable (p < q) :=
  inferInstanceAs (Decidable (p.positions < q.positions))

end Path
end Pseudocode
