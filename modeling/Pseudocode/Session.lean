import Pseudocode.Event
import Pseudocode.Expr.Evaluation
import Pseudocode.Program
import Pseudocode.Value.Input

/-! # Sessions

A session runs a program one instruction at a time. It stops when the program ends, when an input is
needed, when an instruction fails, and before the next instruction once it is cancelled.
-/

namespace Pseudocode

inductive RunError where
  | cancelled (path : Path)
  | failed (path : Path) (line : Nat) (error : EvalError)
  | malformed (path : Path) (kind : InstructionKind)
  | unexpectedInput (expected found : String)
  | notWaiting
  | awaitingInput (name : String)
  | inputExhausted (name : String)
  /-- The session is over; the word says how it ended. -/
  | notRunnable (state : String)
  deriving DecidableEq

def RunError.message : RunError → String
  | .cancelled path => "Execution cancelled before instruction " ++ path.render
  | .failed path line e =>
    "Error in instruction " ++ path.render ++ " (line " ++ toString line ++ "): " ++ e.message
  | .malformed path k => "Instruction " ++ path.render ++ " (" ++ k.keyword ++ ") is malformed"
  | .unexpectedInput expected found =>
    "Input given for '" ++ found ++ "', but LEER is waiting for '" ++ expected ++ "'"
  | .notWaiting => "No LEER instruction is waiting for input"
  | .awaitingInput name =>
    "Execution is suspended until a value for '" ++ name ++ "' is supplied"
  | .inputExhausted name => "No input left for LEER " ++ name
  | .notRunnable state => "Execution cannot continue: interpreter is " ++ state

inductive State where
  | ready
  | waiting (name : String)
  | finished
  | cancelled
  | failed
  deriving DecidableEq

def State.describe : State → String
  | .ready => "ready"
  | .waiting _ => "waiting for input"
  | .finished => "finished"
  | .cancelled => "cancelled"
  | .failed => "failed"

/-- A sequence of instructions on its way. -/
structure Frame where
  instructions : List Instruction
  /-- How many of them have been entered. -/
  next : Nat
  /-- The path of the instruction that the sequence belongs to. -/
  path : Path
  /-- How many instructions of that one are numbered before the sequence. -/
  offset : Nat
  /-- The loop whose body the sequence is; its condition is checked again after the last one. -/
  loop : Option Instruction

def Frame.nextPath (f : Frame) : Path :=
  f.path.child (f.offset + f.next + 1)

structure Session where
  program : Program
  /-- The sequences on their way, the innermost one first. -/
  frames : List Frame
  state : State
  /-- Whether the session has ever been run. -/
  started : Bool
  /-- Whether the session is to stop before the next instruction. -/
  cancelled : Bool
  /-- The number of the event, counted from one, upon which the session gets cancelled. -/
  cancelAt : Option Nat
  environment : Environment
  /-- The events so far. -/
  events : Array Event
  /-- The path and style of the instruction entered last. -/
  current : Option (Path × Style)

inductive Outcome where
  /-- There is more to run. -/
  | running
  | finished
  | waiting (name : String)
  | stopped (error : RunError)
  deriving DecidableEq, Inhabited

namespace Session

def start (p : Program) (cancelAt : Option Nat) : Session where
  program := p
  frames := [⟨p.instructions, 0, .root, 0, none⟩]
  state := .ready
  started := false
  cancelled := false
  cancelAt := cancelAt
  environment := .empty
  events := #[]
  current := none

/-- Reports an event, which may cancel the session. -/
def emit (s : Session) (e : Event) : Session :=
  { s with
    events := s.events.push e
    cancelled := s.cancelled || s.cancelAt == some (s.events.size + 1) }

def emitAll (s : Session) (es : List Event) : Session :=
  es.foldl emit s

def assign (s : Session) (name : String) (v : Value) : Session :=
  { s with environment := s.environment.insert name v }.emit (.assigned name v)

/-- Enters the instruction `i` at `path`: reports the directives aimed at it that style it, and then
the entry itself. -/
def enter (s : Session) (i : Instruction) (path : Path) : Session :=
  let ds := (s.program.aimedAt path).filter (·.kind.appliesTo i.kind)
  let s := s.emitAll (ds.map .styled)
  { s with current := some (path, s.program.style path i.kind) }.emit (.entered path)

def push (s : Session) (f : Frame) : Session :=
  { s with frames := f :: s.frames }

def evaluate (s : Session) (i : Instruction) (path : Path) : Option Expr → Except RunError Value
  | none => .error (.malformed path i.kind)
  | some e => (e.eval s.environment).mapError (.failed path i.line)

def condition (s : Session) (i : Instruction) (path : Path) : Except RunError Bool := do
  match ← s.evaluate i path i.argumentExpr with
  | .boolean b => .ok b
  | v => .error (.failed path i.line (.typeMismatch i.kind.keyword v.type none))

/-- Executes the instruction `i` at `path`, which has been entered. -/
def perform (s : Session) (i : Instruction) (path : Path) : Outcome × Session :=
  match i.kind with
  | .assign =>
    match s.evaluate i path i.value with
    | .error e => (.stopped e, s)
    | .ok v => (.running, s.assign i.argument v)
  | .display =>
    match s.evaluate i path i.argumentExpr with
    | .error e => (.stopped e, s)
    | .ok v => (.running, s.emit (.displayed v))
  | .input =>
    (.waiting i.argument,
      { s.emit (.inputRequested i.argument) with state := .waiting i.argument })
  | .branch =>
    match i.body with
    | none => (.stopped (.malformed path i.kind), s)
    | some body =>
      match s.condition i path with
      | .error e => (.stopped e, s)
      | .ok true => (.running, s.push ⟨body, 0, path, 0, none⟩)
      | .ok false =>
        match i.otherwise with
        | none => (.running, s)
        | some otherwise => (.running, s.push ⟨otherwise, 0, path, body.length, none⟩)
  | .loop =>
    match i.body with
    | none => (.stopped (.malformed path i.kind), s)
    | some body =>
      match s.condition i path with
      | .error e => (.stopped e, s)
      | .ok true => (.running, s.push ⟨body, 0, path, 0, some i⟩)
      | .ok false => (.running, s)

def execute (s : Session) (i : Instruction) (path : Path) : Outcome × Session :=
  (s.enter i path).perform i path

/-- Runs one instruction, or leaves a sequence that is done. -/
def step (s : Session) : Outcome × Session :=
  match s.frames with
  | [] => (.finished, { s with state := .finished })
  | f :: frames =>
    match f.instructions[f.next]? with
    | none =>
      let s := { s with frames := frames }
      match f.loop with
      | none => (.running, s)
      | some i =>
        if s.cancelled then (.stopped (.cancelled f.path), s) else s.execute i f.path
    | some i =>
      if s.cancelled then (.stopped (.cancelled f.nextPath), s)
      else { s with frames := { f with next := f.next + 1 } :: frames }.execute i f.nextPath

/-- The state of a session that an error has stopped. -/
def stateAfter : RunError → State
  | .cancelled _ => .cancelled
  | _ => .failed

/-- Runs at most `fuel` steps; the outcome is `running` if that was not enough. -/
def steps : (fuel : Nat) → Session → Outcome × Session
  | 0, s => (.running, s)
  | fuel + 1, s =>
    match s.step with
    | (.running, s) => steps fuel s
    | (.stopped e, s) => (.stopped e, { s with state := stateAfter e })
    | (outcome, s) => (outcome, s)

/-- Reports the directives for the whole program when the session runs for the first time. -/
def begin (s : Session) : Session :=
  if s.started then s else { s with started := true }.emitAll (s.program.globals.map .styled)

/-- Runs at most `fuel` steps until the program ends, needs an input or is stopped. -/
def run (fuel : Nat) (s : Session) : Outcome × Session :=
  match s.state with
  | .ready => s.begin.steps fuel
  | .waiting name => (.stopped (.awaitingInput name), s)
  | state => (.stopped (.notRunnable state.describe), s)

def answer (s : Session) (name raw : String) : Except RunError Session :=
  match s.state with
  | .waiting expected =>
    if expected = name then .ok { s.assign name (.ofInput raw) with state := .ready }
    else .error (.unexpectedInput expected name)
  | _ => .error .notWaiting

def cancel (s : Session) : Session :=
  { s with cancelled := true }

/-- Runs the session and answers its inputs in turn, at most `fuel` steps between two of them. -/
def runWith (fuel : Nat) : List String → Session → Outcome × Session
  | inputs, s =>
    match s.run fuel with
    | (.waiting name, s) =>
      match inputs with
      | [] => (.stopped (.inputExhausted name), s)
      | raw :: inputs =>
        match s.answer name raw with
        | .error e => (.stopped e, s)
        | .ok s => runWith fuel inputs s
    | result => result

end Session

/-- The events of a program with the given answers to its inputs; `none` if `fuel` steps between two
inputs are not enough. -/
def Program.run (fuel : Nat) (p : Program) (inputs : List String) :
    Option (Except RunError (List Event)) :=
  match (Session.start p none).runWith fuel inputs with
  | (.finished, s) => some (.ok s.events.toList)
  | (.stopped e, _) => some (.error e)
  | _ => none

end Pseudocode
