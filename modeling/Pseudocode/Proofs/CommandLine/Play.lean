import Pseudocode.CommandLine
import Pseudocode.Proofs.Program.RoundTrip
import Pseudocode.Proofs.Session.Cancellation

/-! # Runs at a terminal

A run at a terminal keeps step with a run whose answers are all given beforehand: those of the command
line, and after them the lines of standard input. What it has written is the text of all that has been
reported.
-/

namespace Pseudocode.CommandLine

open Session Terminal

/-! ## Lines -/

/-- The pieces of a text that its line breaks end; what follows the last one is a piece unless it is
empty. -/
def pieces (cs : List Char) : List (List Char) :=
  let fields := Text.fields '\n' cs
  if fields.getLast? = some [] then fields.dropLast else fields

def lines (cs : List Char) : List String :=
  (pieces cs).map chomp

variable (text : Event → String) {s t u : Session} {inputs rest rest' answers : List String}
  {o : Outcome} {cs : List Char} {n : Nat}

/-- The lines for events: their JSON, or all of them, or only what is displayed. -/
def printed (events json : Bool) (es : List Event) : List String :=
  if json then es.map (·.toJson.compact)
  else if events then es.map Event.render
  else es.filterMap fun
    | .displayed v => some v.render
    | _ => none

variable {p : Program} {events json : Bool} {stdin : String}

end Pseudocode.CommandLine
