import Pseudocode.Instruction

/-! # Instructions as source text

An instruction takes one line, and the lines of its blocks stand two blanks further to the right.
-/

namespace Pseudocode.Instruction

def sourceLine (depth : Nat) (s : String) : String :=
  .ofList (.replicate (2 * depth) ' ') ++ s ++ "\n"

mutual

def renderAt (depth : Nat) : Instruction → String
  | ⟨kind, argument, _, value, body, otherwise, _⟩ =>
    match kind with
    | .assign => sourceLine depth (argument ++ " = " ++ (value.map Expr.render).getD "")
    | .display => sourceLine depth ("MOSTRAR " ++ argument)
    | .input => sourceLine depth ("LEER " ++ argument)
    | .branch =>
      sourceLine depth ("SI " ++ argument) ++ renderBlock (depth + 1) body ++
        (if otherwise.isSome then sourceLine depth "SINO" else "") ++
        renderBlock (depth + 1) otherwise ++ sourceLine depth "FINSI"
    | .loop =>
      sourceLine depth ("MIENTRAS " ++ argument) ++ renderBlock (depth + 1) body ++
        sourceLine depth "FINMIENTRAS"

def renderBlock (depth : Nat) : Option (List Instruction) → String
  | none => ""
  | some is => renderSequence depth is

def renderSequence (depth : Nat) : List Instruction → String
  | [] => ""
  | i :: is => renderAt depth i ++ renderSequence depth is

end

def render (i : Instruction) : String :=
  i.renderAt 0

end Pseudocode.Instruction
