import Pseudocode.Instruction
import Pseudocode.Text.Character
import Pseudocode.Token

/-! # Directives

A directive sets how instructions are presented: a property of one family of instructions, for the
whole program or for one instruction.
-/

namespace Pseudocode

inductive Category where
  | si
  | mientras
  | bloque
  deriving DecidableEq, Repr

namespace Category

def suffix : Category → String
  | .si => "SI"
  | .mientras => "MIENTRAS"
  | .bloque => "BLOQUE"

def ofSuffix? : String → Option Category
  | "SI" => some .si
  | "MIENTRAS" => some .mientras
  | "BLOQUE" => some .bloque
  | _ => none

/-- The family of a kind of instruction; those without a block are one family. -/
def of : InstructionKind → Category
  | .branch => .si
  | .loop => .mientras
  | .assign | .display | .input => .bloque

end Category

inductive Property where
  | color
  | textColor
  | figure
  | fontSize
  | font
  deriving DecidableEq, Repr

namespace Property

def stem : Property → String
  | .color => "COLOR_"
  | .textColor => "COLOR_TEXTO_"
  | .figure => "FIGURA_"
  | .fontSize => "LETRA_SIZE_"
  | .font => "LETRA_"

/-- The stems in the order in which they are tried: one that begins with another stands before it. -/
def stems : List (String × Property) :=
  [("COLOR_TEXTO_", .textColor), ("COLOR_", .color), ("FIGURA_", .figure),
    ("LETRA_SIZE_", .fontSize), ("LETRA_", .font)]

end Property

/-- What a directive sets; a name that is not known is kept. -/
inductive DirectiveKind where
  | style (property : Property) (category : Category)
  | unknown (name : String)
  deriving DecidableEq, Repr

namespace DirectiveKind

def name : DirectiveKind → String
  | .style p c => p.stem ++ c.suffix
  | .unknown n => n

/-- The kind whose name is a stem and what is left of `name` after it. -/
def ofStem? (name : String) (stem : String) (p : Property) : Option DirectiveKind := do
  let suffix ← stem.toList.isPrefixOf? name.toList
  return .style p (← Category.ofSuffix? (.ofList suffix))

def ofName (name : String) : DirectiveKind :=
  (Property.stems.findSome? fun entry => ofStem? name entry.1 entry.2).getD (.unknown name)

def category? : DirectiveKind → Option Category
  | .style _ c => some c
  | .unknown _ => none

/-- Whether the kind styles instructions of kind `k`; an unknown kind styles all. -/
def appliesTo (d : DirectiveKind) (k : InstructionKind) : Bool :=
  d.category?.all (· == .of k)

end DirectiveKind

inductive DirectiveValue where
  | hexColor (s : String)
  | triple (a b c : Float)
  | size (d : Float)
  | font (name : String)
  /-- The value of an unknown kind, as written. -/
  | raw (s : String)
  deriving DecidableEq

def DirectiveKind.accepts : DirectiveKind → DirectiveValue → Bool
  | .style .color _, .hexColor _ | .style .textColor _, .hexColor _ | .style .figure _, .triple ..
  | .style .fontSize _, .size _ | .style .font _, .font _ | .unknown _, .raw _ => true
  | _, _ => false

def isHexDigit (c : Char) : Bool :=
  c.isDigit || ('a' ≤ c && c ≤ 'f') || ('A' ≤ c && c ≤ 'F')

/-- An `H` and six hexadecimal digits. -/
def isHexColor (s : String) : Bool :=
  match s.toList with
  | 'H' :: cs => cs.length == 6 && cs.all isHexDigit
  | _ => false

namespace DirectiveValue

/-- Equality with numbers compared as numbers. -/
def same : DirectiveValue → DirectiveValue → Bool
  | .triple a b c, .triple a' b' c' => a == a' && b == b' && c == c'
  | .size d, .size d' => d == d'
  | v, w => v = w

/-- Whether `s` can be written without quotes: it is a word and no keyword. -/
def isPlainWord (s : String) : Bool :=
  Text.isWord s.toList && (Keyword.ofWord? s).isNone

/-- A number; a whole one below `10 ^ 15` has no fraction, and a zero no sign. -/
def renderNumber (d : Float) : String :=
  match Decimal.denote d with
  | .finite negative q =>
    if q.den = 1 ∧ q < 1000000000000000 then
      toString (if negative then -q.num else q.num)
    else Decimal.Layout.literal.render d
  | _ => Decimal.Layout.literal.render d

def render : DirectiveValue → String
  | .hexColor s => s
  | .triple a b c => renderNumber a ++ "," ++ renderNumber b ++ "," ++ renderNumber c
  | .size d => renderNumber d
  | .font name => if isPlainWord name then name else Text.quote name
  | .raw s => s

end DirectiveValue

structure Directive where
  kind : DirectiveKind
  value : DirectiveValue
  /-- The path of the instruction it is aimed at; empty if it holds for the whole program. -/
  index : String
  line : Nat
  deriving DecidableEq

namespace Directive

def isGlobal (d : Directive) : Bool :=
  d.index.isEmpty

def render (d : Directive) : String :=
  "#CONFIG " ++ d.kind.name ++ " " ++ d.value.render ++
    (if d.isGlobal then "" else " " ++ d.index)

/-- Equality apart from lines, with numbers compared as numbers. -/
def same (d e : Directive) : Bool :=
  d.kind = e.kind && d.value.same e.value && d.index = e.index

end Directive
end Pseudocode
