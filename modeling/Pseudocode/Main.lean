import Pseudocode.CommandLine

/-! # The program

Reads files and standard input, and writes what the command line says. A run writes its events as
they happen and reads an answer only when one is needed.
-/

open Pseudocode Pseudocode.CommandLine

def readFile? (file : String) : IO (Option String) := do
  try
    return some (← IO.FS.readFile file)
  catch _ =>
    return none

/-- Standard output and standard input; answers are asked for on standard error. -/
def stdio : Console IO where
  write := IO.print
  ask name := do
    IO.eprint (name ++ "? ")
    (← IO.getStderr).flush
    let line ← (← IO.getStdin).getLine
    return if line.isEmpty then none else some (chomp line.toList)

partial def runLive (text : Event → String) (r : Run) : IO UInt32 := do
  match ← r.play stdio text 1000 with
  | (.running, r) => runLive text r
  | (.stopped e, _) =>
    IO.eprintln e.message
    return 1
  | _ => return 0

def fileOf? : Request → Option String
  | .command (.tokens file) | .command (.parse file _) | .command (.run file ..)
  | .command (.analyze file ..) => some file
  | _ => none

def main (args : List String) : IO UInt32 := do
  let request? := Request.ofArguments? args
  let source? ← match request?.bind fileOf? with
    | some file => readFile? file
    | none => pure none
  match request?, source?.map Program.ofSource with
  | some (.command (.run _ inputs events json)), some (.ok p) =>
    runLive (eventText events json) ⟨.start p none, inputs, 0⟩
  | _, parsed? =>
    if let some (.error e) := parsed? then
      IO.eprintln e.message
    match output 0 (fun _ => source?) "" args with
    | none => return 1
    | some out =>
      IO.print out.text
      return out.code
