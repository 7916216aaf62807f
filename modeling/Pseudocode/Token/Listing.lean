import Pseudocode.Text.Escaped
import Pseudocode.Token
import Pseudocode.Text.Character

/-! # Listings of tokens

One line for each token: where it starts, and its kind with what it stands for.
-/

namespace Pseudocode

def Keyword.name : Keyword → String
  | .si => "Si"
  | .sino => "Sino"
  | .finSi => "FinSi"
  | .mientras => "Mientras"
  | .finMientras => "FinMientras"
  | .mostrar => "Mostrar"
  | .leer => "Leer"
  | .mod => "Mod"
  | .and => "And"
  | .or => "Or"
  | .not => "Not"
  | .verdadero => "True"
  | .falso => "False"

def Symbol.name : Symbol → String
  | .equal => "Equal"
  | .notEqual => "NotEqual"
  | .less => "Less"
  | .lessEqual => "LessEqual"
  | .greater => "Greater"
  | .greaterEqual => "GreaterEqual"
  | .plus => "Plus"
  | .minus => "Minus"
  | .star => "Star"
  | .slash => "Slash"
  | .leftParen => "LParen"
  | .rightParen => "RParen"
  | .comma => "Comma"
  | .dot => "Dot"

namespace TokenKind

def name : TokenKind → String
  | .keyword k => k.name
  | .symbol s => s.name
  | .identifier _ => "Identifier"
  | .integer _ => "Integer"
  | .decimal _ => "Decimal"
  | .text _ => "Text"
  | .directive => "Config"
  | .newline => "Newline"
  | .endOfInput => "Eof"

/-- What a token stands for, in parentheses; nothing if its kind says it all. -/
def listedValue : TokenKind → String
  | .identifier s | .text s => "(" ++ Text.escape s ++ ")"
  | .integer n => "(" ++ toString n.toInt ++ ")"
  | .decimal d => "(" ++ Decimal.Layout.listing.render d ++ ")"
  | _ => ""

end TokenKind

def Span.render (s : Span) : String :=
  toString s.line ++ ":" ++ toString s.column

def Token.listed (t : Token) : String :=
  Text.padRight 7 t.span.render ++ " " ++ t.kind.name ++ t.kind.listedValue ++ "\n"

end Pseudocode
