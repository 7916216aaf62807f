import Pseudocode.CommandLine.Console
import Pseudocode.CommandLine.Request
import Pseudocode.Program.Source
import Pseudocode.Token.Listing
import Pseudocode.View

/-! # The command line

What a command writes to standard output, and its exit code: 0 for success, 1 for a file that cannot
be read or a program that is refused or fails, 2 for arguments that make no sense.
-/

namespace Pseudocode.CommandLine

structure Output where
  code : UInt32
  text : String
  deriving DecidableEq, Inhabited, Repr

namespace Output

def success (text : String) : Output := ⟨0, text⟩

def failure (text : String) : Output := ⟨1, text⟩

def usage : Output := ⟨2, ""⟩

end Output

/-- The text for an event: all events, or only what is displayed. -/
def eventText (events json : Bool) (e : Event) : String :=
  if json then e.toJson.compact ++ "\n"
  else if events then e.render ++ "\n"
  else match e with
    | .displayed v => v.render ++ "\n"
    | _ => ""

/-- What a run with the answers writes, as long as they last, and then with those on standard input;
`none` if it does not end within `fuel` steps. -/
def runOutput (fuel : Nat) (p : Program) (answers : List String) (stdin : String)
    (events json : Bool) : Option Output :=
  let run : Run := ⟨.start p none, answers, 0⟩
  match (run.play Terminal.console (eventText events json) fuel).run ⟨stdin.toList, ""⟩ with
  | ((.finished, _), t) => some (.success t.written)
  | ((.stopped _, _), t) => some (.failure t.written)
  | _ => none

def tokensOutput (source : String) : Output :=
  match Token.ofSource source with
  | .error _ => .failure ""
  | .ok ts => .success (String.join (ts.map Token.listed))

def onProgram (source : String) (text : Program → String) : Output :=
  match Program.ofSource source with
  | .error _ => .failure ""
  | .ok p => .success (text p)

def parseText (json : Bool) (p : Program) : String :=
  if json then p.toJson.pretty ++ "\n" else p.render

/-- A view of a program without the white space at its end. -/
def viewText (view : View) (json : Bool) (p : Program) : String :=
  Text.trimEnd (if json then (view.toJson p).pretty else view.render p) ++ "\n"

def viewsText : String :=
  "Available views:\n" ++
    String.join (View.all.map fun v =>
      "  " ++ Text.padRight 10 v.name ++ " - " ++ v.description ++ "\n")

/-- What a command on a file writes; `source?` is what the file holds, if it can be read. -/
def onFile (source? : Option String) (f : String → Option Output) : Option Output :=
  match source? with
  | none => some (.failure "")
  | some source => f source

/-- What a command writes; `none` if it runs a program that does not end within `fuel` steps. -/
def Command.output (fuel : Nat) (readFile : String → Option String) (stdin : String) :
    Command → Option Output
  | .tokens file => onFile (readFile file) fun source => some (tokensOutput source)
  | .parse file json => onFile (readFile file) fun source => some (onProgram source (parseText json))
  | .run file inputs events json => onFile (readFile file) fun source =>
    match Program.ofSource source with
    | .error _ => some (.failure "")
    | .ok p => runOutput fuel p inputs stdin events json
  | .analyze file name json =>
    match View.ofName? name with
    | none => some .usage
    | some view => onFile (readFile file) fun source => some (onProgram source (viewText view json))
  | .views => some (.success viewsText)

def versionText : String := "pseudoflujo 0.1.0\n"

def output (fuel : Nat) (readFile : String → Option String) (stdin : String) (args : List String) :
    Option Output :=
  match Request.ofArguments? args with
  | none => some .usage
  | some .version => some (.success versionText)
  | some (.command c) => c.output fuel readFile stdin

end Pseudocode.CommandLine
