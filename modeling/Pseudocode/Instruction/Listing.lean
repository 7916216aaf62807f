import Pseudocode.Instruction
import Pseudocode.Path

/-! # Instructions with their paths

Two ways to reach the instructions of a tree: by a path, and all of them in document order, an
instruction before those inside it. Both number the children of an instruction from one.
-/

namespace Pseudocode.Instruction

def atPosition? (is : List Instruction) : Nat → Option Instruction
  | 0 => none
  | n + 1 => is[n]?

/-- The instruction that is reached by position `n` of a sequence and further positions. What is past the
first block of an instruction is in the second one. -/
def findFrom? (is : List Instruction) (n : Nat) : List Nat → Option Instruction
  | [] => atPosition? is n
  | m :: ms => do
    let i ← atPosition? is n
    let body := i.body.getD []
    if m ≤ body.length then
      findFrom? body m ms
    else
      let otherwise ← i.otherwise
      findFrom? otherwise (m - body.length) ms

def find? (is : List Instruction) : List Nat → Option Instruction
  | [] => none
  | n :: ms => findFrom? is n ms

mutual

def listingBelow (path : Path) : Instruction → List (Path × Instruction)
  | ⟨_, _, _, _, body, otherwise, _⟩ =>
    listingBlock path 1 body ++ listingBlock path ((body.getD []).length + 1) otherwise

def listingBlock (path : Path) (next : Nat) : Option (List Instruction) → List (Path × Instruction)
  | none => []
  | some is => listingFrom path next is

/-- The instructions of a sequence inside `path`, numbered from `next` on, and all below them. -/
def listingFrom (path : Path) (next : Nat) : List Instruction → List (Path × Instruction)
  | [] => []
  | i :: is =>
    (path.child next, i) :: listingBelow (path.child next) i ++ listingFrom path (next + 1) is

end

/-- All instructions of a program, each with its path, in document order. -/
def listing (is : List Instruction) : List (Path × Instruction) :=
  listingFrom .root 1 is

end Pseudocode.Instruction
