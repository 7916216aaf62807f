import Pseudocode.Instruction.Printer
import Pseudocode.Program.Validation
import Pseudocode.Style

/-! # Programs

A program is an instruction tree with directives that passed validation.
-/

namespace Pseudocode

structure Program where
  instructions : List Instruction
  directives : List Directive
  /-- What each directive is aimed at. -/
  targets : List (Option Path)
  instructions_valid : checkInstructions instructions = none
  directives_valid : checkDirectives directives = .ok targets

namespace Program

/-- The program with the given parts, unless one of them does not make sense. -/
def ofParts (is : List Instruction) (ds : List Directive) : Except ValidationError Program :=
  match hi : checkInstructions is with
  | some e => .error e
  | none =>
    match hd : checkDirectives ds with
    | .error e => .error e
    | .ok targets => .ok ⟨is, ds, targets, hi, hd⟩

/-- The instruction at a path. -/
def find? (p : Program) (path : Path) : Option Instruction :=
  Instruction.find? p.instructions path.positions

/-- The directives with a target that passes the test, in their order. -/
def targeting (p : Program) (test : Option Path → Bool) : List Directive :=
  ((p.directives.zip p.targets).filter fun (_, target) => test target).map Prod.fst

def globals (p : Program) : List Directive :=
  p.targeting (·.isNone)

def aimedAt (p : Program) (path : Path) : List Directive :=
  p.targeting (· == some path)

/-- The style of an instruction of kind `k` at a path: what is aimed at it goes over what holds for
the whole program. -/
def style (p : Program) (path : Path) (k : InstructionKind) : Style :=
  .resolve (p.globals ++ p.aimedAt path) k

/-- The source text: directives first, then instructions. -/
def render (p : Program) : String :=
  String.join (p.directives.map fun d => d.render ++ "\n") ++
    Instruction.renderSequence 0 p.instructions

/-- Equality apart from lines, with numbers compared as numbers. -/
def sameShape (p q : Program) : Bool :=
  Instruction.sameSequence p.instructions q.instructions &&
    p.directives.length == q.directives.length &&
    (p.directives.zip q.directives).all fun (d, e) => d.same e

end Program
end Pseudocode
