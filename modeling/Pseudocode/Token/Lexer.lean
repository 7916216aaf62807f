import Pseudocode.Decimal.Numeral
import Pseudocode.Text.Character
import Pseudocode.Token

/-! # Reading tokens

Each kind of token is recognised by its first character and takes as many further characters as fit.
Blanks and comments separate tokens; a line break is a token of its own.
-/

namespace Pseudocode

inductive LexError where
  | unexpectedChar (line column : Nat) (found : Char)
  | unterminatedText (line column : Nat)
  | invalidNumber (line column : Nat) (lexeme : String)
  deriving DecidableEq, Repr

namespace LexError

def problem : LexError → String
  | .unexpectedChar _ _ c => "unexpected character '" ++ c.toString ++ "'"
  | .unterminatedText .. => "unterminated string literal"
  | .invalidNumber _ _ lexeme => "invalid number '" ++ lexeme ++ "'"

def line : LexError → Nat
  | .unexpectedChar l _ _ | .unterminatedText l _ | .invalidNumber l _ _ => l

def column : LexError → Nat
  | .unexpectedChar _ c _ | .unterminatedText _ c | .invalidNumber _ c _ => c

def message (e : LexError) : String :=
  "Lexer error at line " ++ toString e.line ++ ", column " ++ toString e.column ++ ": " ++ e.problem

end LexError

namespace Lexer

structure Position where
  line : Nat
  column : Nat
  offset : Nat
  deriving DecidableEq, Repr

def Position.next (p : Position) (c : Char) : Position :=
  if c = '\n' then ⟨p.line + 1, 1, p.offset + c.utf8Size⟩
  else ⟨p.line, p.column + 1, p.offset + c.utf8Size⟩

def Position.after (p : Position) (cs : List Char) : Position :=
  cs.foldl Position.next p

/-- Why no token can be read at some place. -/
inductive Fault where
  | unexpectedChar
  | unterminatedText
  | invalidNumber (length : Nat)

/-- A kind of token, and how many characters it takes after its first one. -/
abbrev Match := TokenKind × Nat

def countWhile (p : Char → Bool) (cs : List Char) : Nat :=
  (cs.takeWhile p).length

/-- The number of characters in a point followed by digits, if one stands at the front. -/
def fractionLength : List Char → Nat
  | '.' :: cs => if countWhile Char.isDigit cs = 0 then 0 else countWhile Char.isDigit cs + 1
  | _ => 0

/-- A number that starts with `c`; a point belongs to it if a digit follows. -/
def number (c : Char) (cs : List Char) : Except Fault Match :=
  let whole := countWhile Char.isDigit cs
  let fraction := fractionLength (cs.drop whole)
  let length := whole + fraction
  if fraction = 0 then
    match Decimal.int64? (Decimal.digitsValue (c :: cs.take length)) with
    | some n => .ok (.integer n, length)
    | none => .error (.invalidNumber (length + 1))
  else
    match Decimal.parseFloat? (c :: cs.take length) with
    | some d => .ok (.decimal d, length)
    | none => .error (.invalidNumber (length + 1))

/-- The characters of a text and how many characters spell them, up to the closing quote. -/
def textBody : List Char → Option (List Char × Nat)
  | '"' :: '"' :: cs => (textBody cs).map fun (body, n) => ('"' :: body, n + 2)
  | '"' :: _ => some ([], 1)
  | '\n' :: _ | [] => none
  | c :: cs => (textBody cs).map fun (body, n) => (c :: body, n + 1)

def text (cs : List Char) : Except Fault Match :=
  match textBody cs with
  | some (body, n) => .ok (.text (.ofList body), n)
  | none => .error .unterminatedText

def word (c : Char) (cs : List Char) : Match :=
  let length := countWhile Text.isWordChar cs
  let name := String.ofList (c :: cs.take length)
  (match Keyword.ofWord? name with
    | some k => .keyword k
    | none => .identifier name, length)

/-- What follows the first character of the word that begins a directive. -/
def directiveTail : List Char := ['C', 'O', 'N', 'F', 'I', 'G']

/-- Whether the directive word stands after a `#`, and not as part of a longer word. -/
def isDirective (cs : List Char) : Bool :=
  directiveTail.isPrefixOf cs && !(cs.drop directiveTail.length).head?.any Text.isWordChar

def symbol? (c : Char) (cs : List Char) : Option Match :=
  match c, cs with
  | '\n', _ => some (.newline, 0)
  | '=', _ => some (.symbol .equal, 0)
  | '<', '=' :: _ => some (.symbol .lessEqual, 1)
  | '<', '>' :: _ => some (.symbol .notEqual, 1)
  | '<', _ => some (.symbol .less, 0)
  | '>', '=' :: _ => some (.symbol .greaterEqual, 1)
  | '>', _ => some (.symbol .greater, 0)
  | '+', _ => some (.symbol .plus, 0)
  | '-', _ => some (.symbol .minus, 0)
  | '*', _ => some (.symbol .star, 0)
  | '/', _ => some (.symbol .slash, 0)
  | '(', _ => some (.symbol .leftParen, 0)
  | ')', _ => some (.symbol .rightParen, 0)
  | ',', _ => some (.symbol .comma, 0)
  | '.', _ => some (.symbol .dot, 0)
  | _, _ => none

/-- The token that starts with `c`, which is neither a blank nor the start of a comment. -/
def front (c : Char) (cs : List Char) : Except Fault Match :=
  if c.isDigit then number c cs
  else if c = '"' then text cs
  else if Text.isLetter c then .ok (word c cs)
  else if c = '#' then .ok (.directive, directiveTail.length)
  else match symbol? c cs with
    | some m => .ok m
    | none => .error .unexpectedChar

def Fault.toError (p : Position) (c : Char) (cs : List Char) : Fault → LexError
  | .unexpectedChar => .unexpectedChar p.line p.column c
  | .unterminatedText => .unterminatedText p.line p.column
  | .invalidNumber n => .invalidNumber p.line p.column (.ofList ((c :: cs).take n))

def tokenAt (p : Position) (k : TokenKind) (cs : List Char) : Token :=
  ⟨k, .ofList cs, ⟨p.line, p.column, p.offset, (p.after cs).offset⟩⟩

/-- The tokens of a text that starts at `p`, up to the end of input or the first error. -/
def scan (p : Position) : List Char → List Token × Option LexError
  | [] => ([tokenAt p .endOfInput []], none)
  | c :: cs =>
    if Text.isBlank c then scan (p.next c) cs
    else if c = '#' && !isDirective cs then
      let n := countWhile (· ≠ '\n') cs
      scan ((p.next c).after (cs.take n)) (cs.drop n)
    else match front c cs with
      | .error fault => ([], some (fault.toError p c cs))
      | .ok (k, n) =>
        let (ts, e) := scan (p.after (c :: cs.take n)) (cs.drop n)
        (tokenAt p k (c :: cs.take n) :: ts, e)
termination_by cs => cs.length
decreasing_by all_goals simp only [List.length_cons, List.length_drop]; omega

end Lexer

def Token.scan (source : String) : List Token × Option LexError :=
  Lexer.scan ⟨1, 1, 0⟩ source.toList

/-- The tokens of a source; the last one is the end of input. -/
def Token.ofSource (source : String) : Except LexError (List Token) :=
  match Token.scan source with
  | (ts, none) => .ok ts
  | (_, some e) => .error e

end Pseudocode
