import Pseudocode.Json.Encoding
import Pseudocode.Text.Character

/-! # Flowcharts

A flowchart has one node for each instruction, from top to bottom in document order, and each node
is connected to the next one.
-/

namespace Pseudocode

inductive Shape where
  | rhombus
  | rectangle
  | parallelogram
  deriving DecidableEq, Repr

namespace Shape

def of : InstructionKind → Shape
  | .branch | .loop => .rhombus
  | .assign => .rectangle
  | .display | .input => .parallelogram

def name : Shape → String
  | .rhombus => "ROMBO"
  | .rectangle => "RECTANGULO"
  | .parallelogram => "PARALELOGRAMO"

def jsonName : Shape → String
  | .rhombus => "Rombo"
  | .rectangle => "Rectangulo"
  | .parallelogram => "Paralelogramo"

end Shape

structure Node where
  /-- The number of the node, counted from one. -/
  index : Nat
  path : Path
  text : String
  shape : Shape
  x : Float
  y : Float
  width : Float
  height : Float
  style : Style

structure Connection where
  name : String
  source : Nat
  target : Nat
  color : String

structure Flowchart where
  nodes : List Node
  connections : List Connection

namespace Flowchart

def nodeText (i : Instruction) : String :=
  match i.kind with
  | .assign =>
    "ASIGNACION " ++ i.argument ++ ((i.value.map fun e => " = " ++ e.render).getD "")
  | .branch | .loop => i.kind.keyword ++ " (" ++ i.argument ++ ")"
  | .display | .input => i.kind.keyword ++ " " ++ i.argument

/-- The distance between the tops of two nodes that follow each other. -/
def pitch : Nat := 90

def node (p : Program) (index : Nat) (path : Path) (i : Instruction) : Node where
  index := index
  path := path
  text := nodeText i
  shape := .of i.kind
  x := 0
  y := Decimal.ofInt (pitch * index : Nat)
  width := 240
  height := 70
  style := p.style path i.kind

def connection (source : Nat) : Connection :=
  ⟨"c" ++ toString source, source, source + 1, Style.defaultColor⟩

def ofProgram (p : Program) : Flowchart :=
  let listing := Instruction.listing p.instructions
  ⟨listing.mapIdx fun n (path, i) => node p (n + 1) path i,
    (List.range (listing.length - 1)).map fun n => connection (n + 1)⟩

def renderNode (n : Node) : String :=
  "  #" ++ Text.padRight 3 (toString n.index) ++ " " ++ Text.padRight 8 n.path.render ++ " " ++
    Text.padRight 13 n.shape.name ++ " y=" ++ Text.padRight 5 (Decimal.Layout.plain.render n.y) ++
    " color=" ++ n.style.color ++ " color_texto=" ++ n.style.textColor ++ " letra=" ++
    n.style.font ++ " " ++ Decimal.Layout.plain.render n.style.fontSize ++ "\n        " ++ n.text ++
    "\n"

def renderConnection (c : Connection) : String :=
  "  " ++ c.name ++ ": #" ++ toString c.source ++ " -> #" ++ toString c.target ++ "\n"

def render (f : Flowchart) : String :=
  "Nodes:\n" ++ String.join (f.nodes.map renderNode) ++
    "Connections:\n" ++ String.join (f.connections.map renderConnection)

def nodeToJson (n : Node) : Json :=
  .obj [
    ("indice", .nat n.index),
    ("ruta", .str n.path.render),
    ("texto", .str n.text),
    ("figura", .str n.shape.jsonName),
    ("x", .decimal n.x),
    ("y", .decimal n.y),
    ("ancho", .decimal n.width),
    ("alto", .decimal n.height),
    ("estilo", n.style.toJson)]

def connectionToJson (c : Connection) : Json :=
  .obj [
    ("id", .str c.name),
    ("origen", .nat c.source),
    ("destino", .nat c.target),
    ("color", .str c.color)]

def toJson (f : Flowchart) : Json :=
  .obj [
    ("nodos", .arr (f.nodes.map nodeToJson)),
    ("conexiones", .arr (f.connections.map connectionToJson))]

end Flowchart
end Pseudocode
