/-! # Requests

What the arguments of a command line ask for. An argument that starts with a minus sign holds
options, except for a minus sign alone; after `--` no argument does.
-/

namespace Pseudocode.CommandLine

inductive Command where
  | tokens (file : String)
  | parse (file : String) (json : Bool)
  | run (file : String) (inputs : List String) (events json : Bool)
  | analyze (file : String) (view : String) (json : Bool)
  | views
  deriving DecidableEq, Repr

inductive Request where
  | version
  | command (c : Command)
  deriving DecidableEq, Repr

inductive Verb where
  | tokens
  | parse
  | run
  | analyze
  | views
  deriving DecidableEq, Repr

inductive Switch where
  | verbose
  | events
  | json
  deriving DecidableEq, Repr

inductive Setting where
  | view
  | input
  deriving DecidableEq, Repr

namespace Verb

def ofName? : String → Option Verb
  | "tokens" => some .tokens
  | "parse" => some .parse
  | "run" => some .run
  | "analyze" => some .analyze
  | "views" => some .views
  | _ => none

def switch? : Verb → String → Option Switch
  | _, "verbose" => some .verbose
  | .run, "events" => some .events
  | .parse, "json" | .run, "json" | .analyze, "json" => some .json
  | _, _ => none

def setting? : Verb → String → Option Setting
  | .analyze, "view" => some .view
  | .run, "input" => some .input
  | _, _ => none

end Verb

/-- The options that one argument holds: any number without a value, and one with a value at the
end, which may still have to come. -/
structure Options where
  switches : List Switch
  setting : Option (Setting × Option String)

namespace Options

def ofLetters? (verb : Verb) : List Char → Option Options
  | [] => some ⟨[], none⟩
  | 'v' :: cs => (ofLetters? verb cs).map fun o => { o with switches := .verbose :: o.switches }
  | 'i' :: cs =>
    if verb ≠ .run then none
    else match cs with
      | [] => some ⟨[], some (.input, none)⟩
      | '=' :: value | value => some ⟨[], some (.input, some (.ofList value))⟩
  | _ => none

def ofName? (verb : Verb) (cs : List Char) : Option Options :=
  let name := String.ofList (cs.takeWhile (· ≠ '='))
  match verb.switch? name, verb.setting? name, cs.dropWhile (· ≠ '=') with
  | some s, _, [] => some ⟨[s], none⟩
  | _, some s, [] => some ⟨[], some (s, none)⟩
  | _, some s, _ :: value => some ⟨[], some (s, some (.ofList value))⟩
  | _, _, _ => none

end Options

structure Given where
  files : List String
  inputs : List String
  view : Option String
  events : Bool
  json : Bool
  deriving DecidableEq, Repr

namespace Given

def nothing : Given := ⟨[], [], none, false, false⟩

/-- Turns an option on; only the verbose one may be repeated. -/
def turnOn? (g : Given) : Switch → Option Given
  | .verbose => some g
  | .events => if g.events then none else some { g with events := true }
  | .json => if g.json then none else some { g with json := true }

/-- Gives an option its value; inputs add up, a view may be given once. -/
def set? (g : Given) (value : String) : Setting → Option Given
  | .input => some { g with inputs := g.inputs ++ [value] }
  | .view => if g.view.isSome then none else some { g with view := some value }

def isValue (a : String) : Bool :=
  a == "-" || a.toList.head? != some '-'

/-- The options in an argument; `none` for an argument that is a file. -/
def options? (verb : Verb) (a : String) : Option (Option Options) :=
  match a.toList with
  | '-' :: '-' :: cs => some (Options.ofName? verb cs)
  | '-' :: c :: cs => some (Options.ofLetters? verb (c :: cs))
  | _ => none

def read? (verb : Verb) (g : Given) : List String → Option Given
  | [] => some g
  | a :: rest =>
    if a = "--" then some { g with files := g.files ++ rest }
    else match options? verb a with
      | none => read? verb { g with files := g.files ++ [a] } rest
      | some none => none
      | some (some o) =>
        match o.switches.foldlM turnOn? g, o.setting, rest with
        | none, _, _ => none
        | some g, none, rest => read? verb g rest
        | some g, some (s, some value), rest => (g.set? value s).bind (read? verb · rest)
        | some _, some (_, none), [] => none
        | some g, some (s, none), value :: rest =>
          if isValue value then (g.set? value s).bind (read? verb · rest) else none

/-- The command, if exactly the file that it needs is given. -/
def command? (g : Given) : Verb → Option Command
  | .tokens => (file? g).map .tokens
  | .parse => (file? g).map (.parse · g.json)
  | .run => (file? g).map (.run · g.inputs g.events g.json)
  | .analyze => (file? g).map (.analyze · (g.view.getD "arbol") g.json)
  | .views => if g.files.isEmpty then some .views else none
where
  file? (g : Given) : Option String :=
    match g.files with
    | [file] => some file
    | _ => none

end Given

/-- Whether an argument before the command asks for the version; `none` if it may not stand there. -/
def asksVersion? (a : String) : Option Bool :=
  match a.toList with
  | '-' :: c :: cs =>
    if a = "--version" then some true
    else if a = "--verbose" then some false
    else match (c :: cs).dropWhile (· = 'v') with
      | [] => some false
      | 'V' :: _ => some true
      | _ => none
  | _ => none

def Request.ofArguments? : List String → Option Request
  | [] => none
  | a :: rest =>
    match Verb.ofName? a with
    | some verb =>
      ((Given.read? verb .nothing rest).bind (·.command? verb)).map .command
    | none =>
      match asksVersion? a with
      | some true => some .version
      | some false => ofArguments? rest
      | none => none

end Pseudocode.CommandLine
