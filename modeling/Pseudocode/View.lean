import Pseudocode.View.Flowchart
import Pseudocode.View.Report

/-! # Views

The ways in which a program can be looked at, each as text and as JSON.
-/

namespace Pseudocode

inductive View where
  | tree
  | report
  | flowchart
  deriving DecidableEq, Repr

namespace View

def all : List View := [.tree, .report, .flowchart]

def name : View → String
  | .tree => "arbol"
  | .report => "reportes"
  | .flowchart => "diagrama"

def description : View → String
  | .tree => "Instruction tree, printed back as source"
  | .report => "Arithmetic operators and control structures"
  | .flowchart => "Flowchart nodes with their resolved style"

def ofName? (name : String) : Option View :=
  all.find? (·.name == name)

def render (p : Program) : View → String
  | .tree => p.render
  | .report => (Report.ofProgram p).render
  | .flowchart => (Flowchart.ofProgram p).render

def toJson (p : Program) : View → Json
  | .tree => p.toJson
  | .report => (Report.ofProgram p).toJson
  | .flowchart => (Flowchart.ofProgram p).toJson

end View
end Pseudocode
