import Pseudocode.Decimal.Layout
import Pseudocode.Text.Escaped

/-! # JSON

JSON values and their text, on one line or indented. Members of an object keep their order.
-/

namespace Pseudocode

inductive Json where
  | null
  | bool (b : Bool)
  | int (n : Int)
  | decimal (d : Float)
  | str (s : String)
  | arr (items : List Json)
  | obj (members : List (String × Json))

namespace Json

/-- Numbers keep a fraction or have an exponent with a sign; of two equally near shortest candidates
the one with an even last digit is taken. -/
def decimalLayout : Decimal.Layout := ⟨.even, some (-5), some 15, true, true⟩

/-- A number; an infinity and NaN have no JSON form. -/
def renderDecimal (d : Float) : String :=
  if Decimal.isFinite d then decimalLayout.render d else "null"

def escapeChar (c : Char) : String :=
  match c with
  | '"' => "\\\""
  | '\\' => "\\\\"
  | '\x08' => "\\b"
  | '\t' => "\\t"
  | '\n' => "\\n"
  | '\x0c' => "\\f"
  | '\r' => "\\r"
  | _ => if c.toNat < 0x20 then "\\u00" ++ Text.hexPair c.toNat else c.toString

def renderString (s : String) : String :=
  "\"" ++ String.join (s.toList.map escapeChar) ++ "\""

def renderLeaf : Json → String
  | .null => "null"
  | .bool b => if b then "true" else "false"
  | .int n => toString n
  | .decimal d => renderDecimal d
  | .str s => renderString s
  | .arr _ => "[]"
  | .obj _ => "\x7b\x7d"

mutual

def compact : Json → String
  | .arr items => "[" ++ ",".intercalate (compactItems items) ++ "]"
  | .obj members => "\x7b" ++ ",".intercalate (compactMembers members) ++ "\x7d"
  | j => j.renderLeaf

def compactItems : List Json → List String
  | [] => []
  | j :: js => j.compact :: compactItems js

def compactMembers : List (String × Json) → List String
  | [] => []
  | (name, j) :: ms => (renderString name ++ ":" ++ j.compact) :: compactMembers ms

end

def newLine (depth : Nat) : String :=
  "\n" ++ .ofList (.replicate (2 * depth) ' ')

mutual

def prettyAt (depth : Nat) : Json → String
  | .arr (j :: js) =>
    "[" ++ ",".intercalate (prettyItems (depth + 1) (j :: js)) ++ newLine depth ++ "]"
  | .obj (m :: ms) =>
    "\x7b" ++ ",".intercalate (prettyMembers (depth + 1) (m :: ms)) ++ newLine depth ++ "\x7d"
  | j => j.renderLeaf

def prettyItems (depth : Nat) : List Json → List String
  | [] => []
  | j :: js => (newLine depth ++ prettyAt depth j) :: prettyItems depth js

def prettyMembers (depth : Nat) : List (String × Json) → List String
  | [] => []
  | (name, j) :: ms =>
    (newLine depth ++ renderString name ++ ": " ++ prettyAt depth j) :: prettyMembers depth ms

end

def pretty (j : Json) : String :=
  j.prettyAt 0

def tagged (tag : String) (j : Json) : Json :=
  .obj [(tag, j)]

def ofOption {α : Type} (f : α → Json) (a : Option α) : Json :=
  (a.map f).getD .null

def nat (n : Nat) : Json :=
  .int n

end Json
end Pseudocode
