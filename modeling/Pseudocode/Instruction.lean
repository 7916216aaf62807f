import Pseudocode.Expr.Printer

/-! # Instructions

The instruction tree. A tree may be built by hand and need not make sense; a program holds one that
does.
-/

namespace Pseudocode

inductive InstructionKind where
  | assign
  | branch
  | loop
  | display
  | input
  deriving DecidableEq, Repr

namespace InstructionKind

/-- The name of the kind in messages; but for assignments, the keyword it starts with. -/
def keyword : InstructionKind → String
  | .assign => "ASIGNAR"
  | .branch => "SI"
  | .loop => "MIENTRAS"
  | .display => "MOSTRAR"
  | .input => "LEER"

def hasBlock : InstructionKind → Bool
  | .branch | .loop => true
  | _ => false

end InstructionKind

structure Instruction where
  kind : InstructionKind
  /-- A variable name for an assignment or an input, else the text of the expression. -/
  argument : String
  /-- The expression that `argument` is the text of. -/
  argumentExpr : Option Expr
  /-- The right-hand side of an assignment. -/
  value : Option Expr
  body : Option (List Instruction)
  /-- The block taken when the condition of a branch fails. -/
  otherwise : Option (List Instruction)
  line : Nat

namespace Instruction

def assign (name : String) (value : Expr) (line : Nat) : Instruction :=
  ⟨.assign, name, none, some value, none, none, line⟩

def branch (condition : Expr) (body : List Instruction) (otherwise : Option (List Instruction))
    (line : Nat) : Instruction :=
  ⟨.branch, condition.render, some condition, none, some body, otherwise, line⟩

def loop (condition : Expr) (body : List Instruction) (line : Nat) : Instruction :=
  ⟨.loop, condition.render, some condition, none, some body, none, line⟩

def display (value : Expr) (line : Nat) : Instruction :=
  ⟨.display, value.render, some value, none, none, none, line⟩

def input (name : String) (line : Nat) : Instruction :=
  ⟨.input, name, none, none, none, none, line⟩

/-- The instructions inside, those of the second block after those of the first. -/
def children (i : Instruction) : List Instruction :=
  i.body.getD [] ++ i.otherwise.getD []

def sameExpr : Option Expr → Option Expr → Bool
  | none, none => true
  | some e, some e' => e.same e'
  | _, _ => false

mutual

/-- Equality apart from lines, with decimals compared as numbers. -/
def sameShape : Instruction → Instruction → Bool
  | ⟨kind, argument, argumentExpr, value, body, otherwise, _⟩, i =>
    kind = i.kind && argument = i.argument && sameExpr argumentExpr i.argumentExpr &&
      sameExpr value i.value && sameBlock body i.body && sameBlock otherwise i.otherwise

def sameBlock : Option (List Instruction) → Option (List Instruction) → Bool
  | none, none => true
  | some is, some js => sameSequence is js
  | _, _ => false

def sameSequence : List Instruction → List Instruction → Bool
  | [], [] => true
  | i :: is, j :: js => i.sameShape j && sameSequence is js
  | _, _ => false

end

end Instruction
end Pseudocode
