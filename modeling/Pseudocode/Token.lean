import Pseudocode.Value

/-! # Tokens

A token has a kind, the text it stands for in the source, and a place there.
-/

namespace Pseudocode

inductive Keyword where
  | si | sino | finSi | mientras | finMientras | mostrar | leer
  | mod | and | or | not | verdadero | falso
  deriving DecidableEq, Repr

/-- The keyword that a word spells; three of them have two spellings. -/
def Keyword.ofWord? : String → Option Keyword
  | "SI" => some .si
  | "SINO" => some .sino
  | "FINSI" => some .finSi
  | "MIENTRAS" => some .mientras
  | "FINMIENTRAS" => some .finMientras
  | "MOSTRAR" => some .mostrar
  | "LEER" => some .leer
  | "MOD" => some .mod
  | "Y" | "AND" => some .and
  | "O" | "OR" => some .or
  | "NO" | "NOT" => some .not
  | "VERDADERO" => some .verdadero
  | "FALSO" => some .falso
  | _ => none

inductive Symbol where
  | equal | notEqual | less | lessEqual | greater | greaterEqual
  | plus | minus | star | slash
  | leftParen | rightParen | comma | dot
  deriving DecidableEq, Repr

inductive TokenKind where
  | keyword (k : Keyword)
  | symbol (s : Symbol)
  | identifier (name : String)
  | integer (n : Int64)
  | decimal (d : Float)
  | text (s : String)
  /-- The word `#CONFIG`, which begins a directive. -/
  | directive
  | newline
  | endOfInput
  deriving DecidableEq

/-- A place in a source: lines and columns are counted in characters from one, `start` and `stop`
in bytes from zero. -/
structure Span where
  line : Nat
  column : Nat
  start : Nat
  stop : Nat
  deriving DecidableEq, Repr

def Span.first : Span := ⟨1, 1, 0, 0⟩

structure Token where
  kind : TokenKind
  lexeme : String
  span : Span
  deriving DecidableEq

def Token.describe (t : Token) : String :=
  match t.kind with
  | .newline => "end of line"
  | .endOfInput => "end of input"
  | _ => "'" ++ t.lexeme ++ "'"

end Pseudocode
