import Pseudocode.Json.Encoding
import Pseudocode.Text.Character

/-! # Reports

The arithmetic operators in assignments and conditions, and the control structures of a program,
both in document order.
-/

namespace Pseudocode

structure Occurrence where
  operator : String
  line : Nat
  /-- The place in `text`, counted in characters from one. -/
  column : Nat
  text : String

structure ControlStructure where
  keyword : String
  line : Nat
  condition : String

structure Report where
  operators : List Occurrence
  structures : List ControlStructure

namespace Report

def operatorName? : Char → Option String
  | '+' => some "Suma"
  | '-' => some "Resta"
  | '*' => some "Multiplicacion"
  | '/' => some "Division"
  | _ => none

/-- The operators in a text and their columns, the first character being in `column`; a quote begins
or ends a stretch in which none is looked for. -/
def scan (quoted : Bool) (column : Nat) : List Char → List (String × Nat)
  | [] => []
  | c :: cs =>
    if c = '"' then scan (!quoted) (column + 1) cs
    else match if quoted then none else operatorName? c with
      | some name => (name, column) :: scan quoted (column + 1) cs
      | none => scan quoted (column + 1) cs

def scannedText? (i : Instruction) : Option String :=
  match i.kind with
  | .assign => i.value.map Expr.render
  | .branch | .loop => some i.argument
  | .display | .input => none

/-- The operators of an instruction, those in its blocks aside. -/
def operatorsOf (i : Instruction) : List Occurrence :=
  match scannedText? i with
  | none => []
  | some text =>
    (scan false 1 text.toList).map fun (name, column) => ⟨name, i.line, column, text⟩

def structureOf? (i : Instruction) : Option ControlStructure :=
  if i.kind.hasBlock then some ⟨i.kind.keyword, i.line, i.argument⟩ else none

def ofProgram (p : Program) : Report :=
  let is := (Instruction.listing p.instructions).map (·.2)
  ⟨is.flatMap operatorsOf, is.filterMap structureOf?⟩

def renderHead (name : String) (line : Nat) : String :=
  "  " ++ Text.padRight 15 name ++ " line " ++ Text.padLeft 3 (toString line)

def render (r : Report) : String :=
  "Operators:\n" ++
    String.join (r.operators.map fun o =>
      renderHead o.operator o.line ++ ", column " ++ Text.padLeft 3 (toString o.column) ++ "  " ++
        o.text ++ "\n") ++
    "Control structures:\n" ++
    String.join (r.structures.map fun s => renderHead s.keyword s.line ++ "  " ++ s.condition ++ "\n")

def toJson (r : Report) : Json :=
  .obj [
    ("operadores", .arr (r.operators.map fun o => .obj [
      ("operador", .str o.operator),
      ("linea", .nat o.line),
      ("columna", .nat o.column),
      ("ocurrencia", .str o.text)])),
    ("estructuras", .arr (r.structures.map fun s => .obj [
      ("objeto", .str s.keyword),
      ("linea", .nat s.line),
      ("condicion", .str s.condition)]))]

end Report
end Pseudocode
