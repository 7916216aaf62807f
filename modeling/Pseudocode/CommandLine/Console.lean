import Pseudocode.Session

/-! # Consoles

A run of a program at a console: its events are written as they happen, and once the answers that it
was given beforehand are used up, each further one is a line read from the console.
-/

namespace Pseudocode.CommandLine

/-- What a run writes to, and reads its answers from. -/
structure Console (m : Type → Type) where
  write : String → m Unit
  /-- The next line, which is to be the value of the variable; `none` after the last one. -/
  ask : String → m (Option String)

/-- A run under way: its session, the answers given beforehand that are not used yet, and how many of
its events are written. -/
structure Run where
  session : Session
  answers : List String
  written : Nat

section

variable {m : Type → Type} [Monad m] (console : Console m) (text : Event → String)

@[specialize] def Run.flush : Run → m Run
  | ⟨s, answers, written⟩ => do
    console.write (String.join ((s.events.extract written).toList.map text))
    return ⟨s, answers, s.events.size⟩

@[specialize] def nextAnswer (name : String) : List String → m (Option String × List String)
  | raw :: answers => return (some raw, answers)
  | [] => return (← console.ask name, [])

@[specialize] def Run.advance : Run → m (Outcome × Run)
  | ⟨s, answers, written⟩ => do
    let (outcome, s) := s.run 1
    let ⟨s, answers, written⟩ ← Run.flush console text ⟨s, answers, written⟩
    match outcome with
    | .waiting name =>
      let (raw?, answers) ← nextAnswer console name answers
      match raw? with
      | none => return (.stopped (.inputExhausted name), ⟨s, answers, written⟩)
      | some raw =>
        match s.answer name raw with
        | .error e => return (.stopped e, ⟨s, answers, written⟩)
        | .ok s => return (.running, ← Run.flush console text ⟨s, answers, written⟩)
    | outcome => return (outcome, ⟨s, answers, written⟩)

@[specialize] def Run.play : (fuel : Nat) → Run → m (Outcome × Run)
  | 0, r => return (.running, r)
  | fuel + 1, r => do
    match ← r.advance console text with
    | (.running, r) => play fuel r
    | result => return result

end

/-! ## A console of texts -/

/-- A line without the line breaks at its end. -/
def chomp (cs : List Char) : String :=
  .ofList (cs.reverse.dropWhile fun c => c = '\r' || c = '\n').reverse

structure Terminal where
  unread : List Char
  written : String
  deriving DecidableEq, Repr

namespace Terminal

/-- The characters up to the first line break, with it, and those after it. -/
def takeLine : List Char → List Char × List Char
  | [] => ([], [])
  | c :: cs =>
    if c = '\n' then ([c], cs)
    else
      let (line, rest) := takeLine cs
      (c :: line, rest)

def write (text : String) (t : Terminal) : Terminal :=
  { t with written := t.written ++ text }

def readLine (t : Terminal) : Option String × Terminal :=
  match t.unread with
  | [] => (none, t)
  | cs =>
    let (line, rest) := takeLine cs
    (some (chomp line), { t with unread := rest })

def console : Console (StateM Terminal) where
  write text := modify (write text)
  ask _ := modifyGet readLine

end Terminal
end Pseudocode.CommandLine
