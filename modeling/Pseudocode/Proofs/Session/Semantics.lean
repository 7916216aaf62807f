import Pseudocode.Session

/-! # What an instruction tree does

The meaning of instructions by recursion over the tree: a sequence is run from front to back, a
branch runs one of its blocks, and a loop runs its body and then itself. No stack is kept, and a
program that never ends has no meaning here.
-/

namespace Pseudocode

inductive Action where
  | assign (name : String) (value : Expr)
  | display (value : Expr)
  | input (name : String)
  | branch (condition : Expr) (body otherwise : List Instruction)
  | loop (condition : Expr) (body : List Instruction)

namespace Instruction

/-- What the instruction does, unless something is missing; an absent second block is empty. -/
def action? (i : Instruction) : Option Action :=
  match i.kind, i.argumentExpr, i.value, i.body with
  | .assign, _, some e, _ => some (.assign i.argument e)
  | .display, some e, _, _ => some (.display e)
  | .input, _, _, _ => some (.input i.argument)
  | .branch, some c, _, some body => some (.branch c body (i.otherwise.getD []))
  | .loop, some c, _, some body => some (.loop c body)
  | _, _, _, _ => none

section

variable {i : Instruction} {x : String} {c e : Expr} {body otherwise : List Instruction}

theorem action?_eq_assign :
    i.action? = some (.assign x e) ↔ i.kind = .assign ∧ i.argument = x ∧ i.value = some e := by
  obtain ⟨kind, argument, argumentExpr, value, b, o, line⟩ := i
  cases kind <;> cases argumentExpr <;> cases value <;> cases b <;> simp [action?]

theorem action?_eq_display :
    i.action? = some (.display e) ↔ i.kind = .display ∧ i.argumentExpr = some e := by
  obtain ⟨kind, argument, argumentExpr, value, b, o, line⟩ := i
  cases kind <;> cases argumentExpr <;> cases value <;> cases b <;> simp [action?]

theorem action?_eq_input : i.action? = some (.input x) ↔ i.kind = .input ∧ i.argument = x := by
  obtain ⟨kind, argument, argumentExpr, value, b, o, line⟩ := i
  cases kind <;> cases argumentExpr <;> cases value <;> cases b <;> simp [action?]

theorem action?_eq_branch :
    i.action? = some (.branch c body otherwise) ↔ i.kind = .branch ∧ i.argumentExpr = some c ∧
      i.body = some body ∧ i.otherwise.getD [] = otherwise := by
  obtain ⟨kind, argument, argumentExpr, value, b, o, line⟩ := i
  cases kind <;> cases argumentExpr <;> cases value <;> cases b <;> simp [action?]

theorem action?_eq_loop :
    i.action? = some (.loop c body) ↔ i.kind = .loop ∧ i.argumentExpr = some c ∧
      i.body = some body := by
  obtain ⟨kind, argument, argumentExpr, value, b, o, line⟩ := i
  cases kind <;> cases argumentExpr <;> cases value <;> cases b <;> simp [action?]

end

/-- An instruction that lacks nothing, and neither does any inside it. -/
inductive Complete : Instruction → Prop where
  | intro {i : Instruction} : i.action?.isSome → (∀ j ∈ i.children, Complete j) → Complete i

theorem Complete.action {i : Instruction} (h : i.Complete) : i.action?.isSome := by
  cases h with | intro ha _ => exact ha

theorem Complete.children {i : Instruction} (h : i.Complete) : ∀ j ∈ i.children, j.Complete := by
  cases h with | intro _ hc => exact hc

end Instruction

/-- The truth value of a condition; `keyword` names its statement in the error. -/
def Expr.truth (env : Environment) (keyword : String) (e : Expr) : Except EvalError Bool :=
  match e.eval env with
  | .error err => .error err
  | .ok (.boolean b) => .ok b
  | .ok v => .error (.typeMismatch keyword v.type none)

/-- How far a program has got: its variables, what it has reported, and the answers that it has not
yet asked for. -/
structure Progress where
  environment : Environment
  events : List Event
  inputs : List String

namespace Progress

def report (σ : Progress) (e : Event) : Progress :=
  { σ with events := σ.events ++ [e] }

def bind (σ : Progress) (name : String) (v : Value) : Progress :=
  { σ with environment := σ.environment.insert name v, events := σ.events ++ [.assigned name v] }

def enter (σ : Progress) (p : Program) (i : Instruction) (path : Path) : Progress :=
  { σ with events := σ.events ++
      (((p.aimedAt path).filter (·.kind.appliesTo i.kind)).map .styled ++ [.entered path]) }

end Progress

/-- A part of a program at its place. -/
inductive Task where
  | one (i : Instruction) (path : Path)
  /-- A sequence inside `path`, numbered from `next` on. -/
  | sequence (is : List Instruction) (path : Path) (next : Nat)

/-- A task leads from one progress to another and ends there, normally or by an error. -/
inductive Runs (p : Program) : Task → Progress → Progress → Option RunError → Prop where

  | nil {path : Path} {n : Nat} {σ : Progress} : Runs p (.sequence [] path n) σ σ none

  | next {i : Instruction} {is : List Instruction} {path : Path} {n : Nat} {σ σ' σ'' : Progress}
      {r : Option RunError} :
      Runs p (.one i (path.child n)) σ σ' none → Runs p (.sequence is path (n + 1)) σ' σ'' r →
      Runs p (.sequence (i :: is) path n) σ σ'' r

  | halt {i : Instruction} {is : List Instruction} {path : Path} {n : Nat} {σ σ' : Progress}
      {e : RunError} :
      Runs p (.one i (path.child n)) σ σ' (some e) →
      Runs p (.sequence (i :: is) path n) σ σ' (some e)

  | assign {i : Instruction} {path : Path} {σ : Progress} {x : String} {e : Expr} {v : Value} :
      i.action? = some (.assign x e) → e.eval σ.environment = .ok v →
      Runs p (.one i path) σ ((σ.enter p i path).bind x v) none

  | assign_fails {i : Instruction} {path : Path} {σ : Progress} {x : String} {e : Expr}
      {err : EvalError} :
      i.action? = some (.assign x e) → e.eval σ.environment = .error err →
      Runs p (.one i path) σ (σ.enter p i path) (some (.failed path i.line err))

  | display {i : Instruction} {path : Path} {σ : Progress} {e : Expr} {v : Value} :
      i.action? = some (.display e) → e.eval σ.environment = .ok v →
      Runs p (.one i path) σ ((σ.enter p i path).report (.displayed v)) none

  | display_fails {i : Instruction} {path : Path} {σ : Progress} {e : Expr} {err : EvalError} :
      i.action? = some (.display e) → e.eval σ.environment = .error err →
      Runs p (.one i path) σ (σ.enter p i path) (some (.failed path i.line err))

  | input {i : Instruction} {path : Path} {σ : Progress} {x raw : String} {rest : List String} :
      i.action? = some (.input x) → σ.inputs = raw :: rest →
      Runs p (.one i path) σ
        ({ (σ.enter p i path).report (.inputRequested x) with inputs := rest }.bind x (.ofInput raw))
        none

  | input_exhausted {i : Instruction} {path : Path} {σ : Progress} {x : String} :
      i.action? = some (.input x) → σ.inputs = [] →
      Runs p (.one i path) σ ((σ.enter p i path).report (.inputRequested x))
        (some (.inputExhausted x))

  | branch_then {i : Instruction} {path : Path} {σ σ' : Progress} {c : Expr}
      {body otherwise : List Instruction} {r : Option RunError} :
      i.action? = some (.branch c body otherwise) →
      c.truth σ.environment i.kind.keyword = .ok true →
      Runs p (.sequence body path 1) (σ.enter p i path) σ' r →
      Runs p (.one i path) σ σ' r

  | branch_else {i : Instruction} {path : Path} {σ σ' : Progress} {c : Expr}
      {body otherwise : List Instruction} {r : Option RunError} :
      i.action? = some (.branch c body otherwise) →
      c.truth σ.environment i.kind.keyword = .ok false →
      Runs p (.sequence otherwise path (body.length + 1)) (σ.enter p i path) σ' r →
      Runs p (.one i path) σ σ' r

  | branch_fails {i : Instruction} {path : Path} {σ : Progress} {c : Expr}
      {body otherwise : List Instruction} {err : EvalError} :
      i.action? = some (.branch c body otherwise) →
      c.truth σ.environment i.kind.keyword = .error err →
      Runs p (.one i path) σ (σ.enter p i path) (some (.failed path i.line err))

  | loop_again {i : Instruction} {path : Path} {σ σ' σ'' : Progress} {c : Expr}
      {body : List Instruction} {r : Option RunError} :
      i.action? = some (.loop c body) → c.truth σ.environment i.kind.keyword = .ok true →
      Runs p (.sequence body path 1) (σ.enter p i path) σ' none →
      Runs p (.one i path) σ' σ'' r →
      Runs p (.one i path) σ σ'' r

  | loop_halt {i : Instruction} {path : Path} {σ σ' : Progress} {c : Expr}
      {body : List Instruction} {e : RunError} :
      i.action? = some (.loop c body) → c.truth σ.environment i.kind.keyword = .ok true →
      Runs p (.sequence body path 1) (σ.enter p i path) σ' (some e) →
      Runs p (.one i path) σ σ' (some e)

  | loop_done {i : Instruction} {path : Path} {σ : Progress} {c : Expr} {body : List Instruction} :
      i.action? = some (.loop c body) → c.truth σ.environment i.kind.keyword = .ok false →
      Runs p (.one i path) σ (σ.enter p i path) none

  | loop_fails {i : Instruction} {path : Path} {σ : Progress} {c : Expr} {body : List Instruction}
      {err : EvalError} :
      i.action? = some (.loop c body) → c.truth σ.environment i.kind.keyword = .error err →
      Runs p (.one i path) σ (σ.enter p i path) (some (.failed path i.line err))

def Progress.result (σ : Progress) : Option RunError → Except RunError (List Event)
  | none => .ok σ.events
  | some e => .error e

namespace Program

/-- Where a program begins: the directives for all of it have been reported, and nothing else. -/
def outset (p : Program) (inputs : List String) : Progress :=
  ⟨.empty, p.globals.map .styled, inputs⟩

/-- The program gives `result` by the meaning of its tree. -/
def Yields (p : Program) (inputs : List String) (result : Except RunError (List Event)) : Prop :=
  ∃ σ r, Runs p (.sequence p.instructions .root 1) (p.outset inputs) σ r ∧ σ.result r = result

end Program
end Pseudocode
