import Pseudocode.Directive
import Pseudocode.Path

/-! # Events

What a running program reports, in the order in which it happens.
-/

namespace Pseudocode

inductive Event where
  | entered (path : Path)
  | styled (d : Directive)
  | displayed (v : Value)
  | inputRequested (name : String)
  | assigned (name : String) (v : Value)
  deriving DecidableEq

def Event.render : Event → String
  | .entered path => "enter   " ++ path.render
  | .styled d => "config  " ++ d.render
  | .displayed v => "output  " ++ v.render
  | .inputRequested name => "input   " ++ name
  | .assigned name v => "set     " ++ name ++ " = " ++ v.render

end Pseudocode
