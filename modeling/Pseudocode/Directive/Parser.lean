import Pseudocode.Directive
import Pseudocode.Expr.Parser

/-! # Reading directives

A directive is `#CONFIG`, a kind, a value, and the path it is aimed at. The kind decides what the
value has to look like.
-/

namespace Pseudocode

/-- A value as written, before the kind gives it a meaning. -/
inductive WrittenValue where
  | word (s : String)
  | numbers (ds : List Float)
  | text (s : String)

namespace WrittenValue

def number? : TokenKind → Option Float
  | .integer n => some (Decimal.ofInt n.toInt)
  | .decimal d => some d
  | _ => none

def readNumber (final : Span) : Reading Float
  | [] => .error (unexpected final .number [])
  | t :: ts =>
    match number? t.kind with
    | some d => .ok (.one d)
    | none => .error (unexpected final .number (t :: ts))

def readSigned (final : Span) : Reading Float
  | [] => readNumber final []
  | t :: ts =>
    if t.kind = .symbol .minus then
      (readNumber final ts).map fun d => (d.map fun x => -x).ofTail
    else readNumber final (t :: ts)

/-- Goes on with the numbers that follow commas; those read so far are in reverse order. -/
def readMore (final : Span) {ts : List Token} (ds : Parsed (List Float) ts) :
    Except SyntaxError (Parsed (List Float) ts) :=
  match h : ds.rest with
  | [] => .ok ds
  | t :: rest =>
    if t.kind = .symbol .comma then do
      let d ← readSigned final rest
      readMore final ((ds.afterToken h d).map (· :: ds.value))
    else .ok ds
termination_by ds.rest.length
decreasing_by exact ds.afterToken_shorter h d

def readNumbers (final : Span) : Reading WrittenValue := fun ts => do
  let first ← readSigned final ts
  let ds ← readMore final (first.map ([·]))
  .ok (ds.map fun ds => .numbers ds.reverse)

/-- Reads an expression without variables and takes its value, a number. -/
def readConstant (final : Span) (line : Nat) : Reading WrittenValue := fun ts => do
  let e ← Expr.read final ts
  match e.value.eval .empty with
  | .error error => .error (.invalidDirective line (.notEvaluable e.value error))
  | .ok v =>
    match v.toFloat? with
    | some d => .ok (e.map fun _ => .numbers [d])
    | none => .error (.invalidDirective line (.notANumber e.value))

def read (final : Span) (line : Nat) : Reading WrittenValue
  | [] => .error (.invalidDirective line .missingValue)
  | t :: ts =>
    match t.kind with
    | .identifier s => .ok (.one (.word s))
    | .text s => .ok (.one (.text s))
    | .symbol .leftParen => readConstant final line (t :: ts)
    | .integer _ | .decimal _ | .symbol .minus => readNumbers final (t :: ts)
    | .keyword _ | .symbol _ | .directive | .newline | .endOfInput =>
      .error (.invalidDirective line .missingValue)

end WrittenValue

/-- The meaning of a written value for a kind; `lexemes` is the value as written. -/
def DirectiveKind.interpret (kind : DirectiveKind) (lexemes : String) (v : WrittenValue) :
    Except DirectiveProblem DirectiveValue :=
  match kind with
  | .unknown _ => .ok (.raw lexemes)
  | .style property _ =>
    match property, v with
    | .color, .word s | .textColor, .word s =>
      if isHexColor s then .ok (.hexColor s) else .error (.wrongShape kind.name .color lexemes)
    | .color, _ | .textColor, _ => .error (.wrongShape kind.name .color lexemes)
    | .figure, .numbers [a, b, c] => .ok (.triple a b c)
    | .figure, _ => .error (.wrongShape kind.name .triple lexemes)
    | .fontSize, .numbers [d] =>
      if 0 < d then .ok (.size d) else .error (.wrongShape kind.name .size lexemes)
    | .fontSize, _ => .error (.wrongShape kind.name .size lexemes)
    | .font, .word s | .font, .text s => .ok (.font s)
    | .font, .numbers _ => .error (.wrongShape kind.name .font lexemes)

namespace Directive

def lexemes (ts : List Token) : String :=
  String.join (ts.map Token.lexeme)

def onLine (t : Token) : Bool :=
  match t.kind with
  | .newline | .endOfInput => false
  | _ => true

def readKind (final : Span) : Reading DirectiveKind
  | [] => .error (unexpected final .directiveKind [])
  | t :: ts =>
    match t.kind with
    | .identifier name => .ok (.one (.ofName name))
    | _ => .error (unexpected final .directiveKind (t :: ts))

/-- Reads a directive after its first word, which stands on the given line. The rest of the line is
the path that the directive is aimed at. -/
def read (final : Span) (line : Nat) : Reading Directive := fun ts => do
  let kind ← readKind final ts
  let written ← WrittenValue.read final line kind.rest
  let text := lexemes (kind.rest.take (kind.rest.length - written.rest.length))
  match kind.value.interpret text written.value with
  | .error problem => .error (.invalidDirective line problem)
  | .ok value =>
    let p := kind.followedBy written
    .ok ⟨⟨kind.value, value, lexemes (p.rest.takeWhile onLine), line⟩, p.rest.dropWhile onLine,
      Nat.lt_of_le_of_lt (List.dropWhile_suffix _).length_le p.shorter⟩

end Directive
end Pseudocode
