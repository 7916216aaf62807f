import Pseudocode.Directive
import Pseudocode.NameMap

/-! # Styles

How one instruction is presented, once its directives are put over the defaults. Of two directives
that set the same thing the later one counts.
-/

namespace Pseudocode

structure Style where
  color : String
  textColor : String
  figure : Option (Float × Float × Float)
  font : String
  fontSize : Float
  /-- The values of unknown kinds, by the name of the kind. -/
  extras : NameMap String

namespace Style

/-- The color of what no directive gives a color. -/
def defaultColor : String := "DEFAULT"

def default : Style :=
  ⟨defaultColor, defaultColor, none, "ARIAL", 14, .empty⟩

def apply (s : Style) (d : Directive) : Style :=
  match d.kind, d.value with
  | .style .color _, .hexColor hex => { s with color := hex }
  | .style .textColor _, .hexColor hex => { s with textColor := hex }
  | .style .figure _, .triple a b c => { s with figure := some (a, b, c) }
  | .style .fontSize _, .size d => { s with fontSize := d }
  | .style .font _, .font name => { s with font := name }
  | kind, value => { s with extras := s.extras.insert kind.name value.render }

/-- The style of an instruction of kind `k` under directives, given in their order. -/
def resolve (ds : List Directive) (k : InstructionKind) : Style :=
  (ds.filter (·.kind.appliesTo k)).foldl apply default

end Style
end Pseudocode
