import Pseudocode.Event
import Pseudocode.Json
import Pseudocode.Program

/-! # Programs and events as JSON

Kinds are named as in source texts, and every field is written, also one that is absent.
-/

namespace Pseudocode

def Value.toJson : Value → Json
  | .integer n => .tagged "Integer" (.int n.toInt)
  | .decimal d => .tagged "Decimal" (.decimal d)
  | .boolean b => .tagged "Boolean" (.bool b)
  | .text s => .tagged "Text" (.str s)

def BinaryOp.jsonName : BinaryOp → String
  | .arith .add => "Add"
  | .arith .subtract => "Subtract"
  | .arith .multiply => "Multiply"
  | .arith .divide => "Divide"
  | .arith .modulo => "Modulo"
  | .compare .equal => "Equal"
  | .compare .notEqual => "NotEqual"
  | .compare .less => "Less"
  | .compare .lessEqual => "LessEqual"
  | .compare .greater => "Greater"
  | .compare .greaterEqual => "GreaterEqual"
  | .logic .and => "And"
  | .logic .or => "Or"

def UnaryOp.jsonName : UnaryOp → String
  | .negate => "Negate"
  | .not => "Not"

def Expr.toJson : Expr → Json
  | .literal v => v.toJson
  | .var x => .tagged "Variable" (.str x)
  | .unary op e =>
    .tagged "UnaryOp" (.obj [("op", .str op.jsonName), ("operand", e.toJson)])
  | .binary l op r =>
    .tagged "BinaryOp" (.obj [("left", l.toJson), ("op", .str op.jsonName), ("right", r.toJson)])

def InstructionKind.jsonName : InstructionKind → String
  | .assign => "Asignar"
  | .branch => "Si"
  | .loop => "Mientras"
  | .display => "Mostrar"
  | .input => "Leer"

namespace Instruction

mutual

def toJson : Instruction → Json
  | ⟨kind, argument, argumentExpr, value, body, otherwise, line⟩ =>
    .obj [
      ("tipo", .str kind.jsonName),
      ("argumento", .str argument),
      ("argumento_expr", .ofOption Expr.toJson argumentExpr),
      ("expresion", .ofOption Expr.toJson value),
      ("bloque", blockToJson body),
      ("bloque_sino", blockToJson otherwise),
      ("linea", .nat line)]

def blockToJson : Option (List Instruction) → Json
  | none => .null
  | some is => .arr (sequenceToJson is)

def sequenceToJson : List Instruction → List Json
  | [] => []
  | i :: is => toJson i :: sequenceToJson is

end

end Instruction

def Category.jsonName : Category → String
  | .si => "Si"
  | .mientras => "Mientras"
  | .bloque => "Bloque"

def Property.jsonName : Property → String
  | .color => "Color"
  | .textColor => "ColorTexto"
  | .figure => "Figura"
  | .fontSize => "LetraSize"
  | .font => "Letra"

def DirectiveKind.toJson : DirectiveKind → Json
  | .style p c => .tagged p.jsonName (.str c.jsonName)
  | .unknown name => .tagged "Desconocido" (.str name)

def DirectiveValue.toJson : DirectiveValue → Json
  | .hexColor s => .tagged "ColorHex" (.str s)
  | .triple a b c => .tagged "Triple" (.arr [.decimal a, .decimal b, .decimal c])
  | .size d => .tagged "Tamano" (.decimal d)
  | .font name => .tagged "Fuente" (.str name)
  | .raw s => .tagged "Texto" (.str s)

def Directive.toJson (d : Directive) : Json :=
  .obj [
    ("tipo", d.kind.toJson),
    ("valor", d.value.toJson),
    ("indice", .str d.index),
    ("linea", .nat d.line)]

def Program.toJson (p : Program) : Json :=
  .obj [
    ("instrucciones", .arr (Instruction.sequenceToJson p.instructions)),
    ("configuraciones", .arr (p.directives.map Directive.toJson))]

def Style.toJson (s : Style) : Json :=
  .obj [
    ("color", .str s.color),
    ("color_texto", .str s.textColor),
    ("figura", .ofOption (fun (a, b, c) => .arr [.decimal a, .decimal b, .decimal c]) s.figure),
    ("letra", .str s.font),
    ("tam_letra", .decimal s.fontSize),
    ("otros", .obj (s.extras.toList.map fun (name, value) => (name, .str value)))]

def Event.toJson : Event → Json
  | .entered path => .tagged "StatementEntered" (.str path.render)
  | .styled d => .tagged "ConfigurationApplied" d.toJson
  | .displayed v => .tagged "OutputProduced" v.toJson
  | .inputRequested name => .tagged "InputRequested" (.str name)
  | .assigned name v => .tagged "VariableChanged" (.arr [.str name, v.toJson])

end Pseudocode
