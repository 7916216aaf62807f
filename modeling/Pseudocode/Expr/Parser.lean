import Pseudocode.Syntax.Reading

/-! # Reading expressions

Binary operators stand on five levels of precedence and group to the left on each. A unary operator
binds tighter than all of them.
-/

namespace Pseudocode

def BinaryOp.ofToken? : TokenKind → Option BinaryOp
  | .keyword .or => some (.logic .or)
  | .keyword .and => some (.logic .and)
  | .keyword .mod => some (.arith .modulo)
  | .symbol .equal => some (.compare .equal)
  | .symbol .notEqual => some (.compare .notEqual)
  | .symbol .less => some (.compare .less)
  | .symbol .lessEqual => some (.compare .lessEqual)
  | .symbol .greater => some (.compare .greater)
  | .symbol .greaterEqual => some (.compare .greaterEqual)
  | .symbol .plus => some (.arith .add)
  | .symbol .minus => some (.arith .subtract)
  | .symbol .star => some (.arith .multiply)
  | .symbol .slash => some (.arith .divide)
  | _ => none

def UnaryOp.ofToken? : TokenKind → Option UnaryOp
  | .keyword .not => some .not
  | .symbol .minus => some .negate
  | _ => none

namespace Expr

def ofToken? : TokenKind → Option Expr
  | .integer n => some (.literal (.integer n))
  | .decimal d => some (.literal (.decimal d))
  | .text s => some (.literal (.text s))
  | .keyword .verdadero => some (.literal (.boolean true))
  | .keyword .falso => some (.literal (.boolean false))
  | .identifier x => some (.var x)
  | .keyword _ | .symbol _ | .directive | .newline | .endOfInput => none

def operatorAt? (precedence : Nat) (t : Token) : Option BinaryOp :=
  (BinaryOp.ofToken? t.kind).filter (·.precedence == precedence)

/-- Extends `left` by operators of one precedence and their right operands. -/
def chainFrom (precedence : Nat) (operand : Reading Expr) {ts : List Token} (left : Parsed Expr ts) :
    Except SyntaxError (Parsed Expr ts) :=
  match h : left.rest with
  | [] => .ok left
  | t :: rest =>
    match operatorAt? precedence t with
    | none => .ok left
    | some op => do
      let right ← operand rest
      chainFrom precedence operand ((left.afterToken h right).map (.binary left.value op))
termination_by left.rest.length
decreasing_by exact left.afterToken_shorter h right

def chain (precedence : Nat) (operand : Reading Expr) : Reading Expr := fun ts => do
  chainFrom precedence operand (← operand ts)

def levels (operand : Reading Expr) : Reading Expr :=
  chain 1 (chain 2 (chain 3 (chain 4 (chain 5 operand))))

/-- Reads an operand of a binary operator; `allowed` more parentheses and unary operators may be
opened. -/
def readOperand (final : Span) : (allowed : Nat) → Reading Expr
  | _, [] => .error (unexpected final .operand [])
  | allowed, t :: ts =>
    match UnaryOp.ofToken? t.kind with
    | some op =>
      match allowed with
      | 0 => .error (.tooDeep t.span.line)
      | allowed + 1 => do
        let e ← readOperand final allowed ts
        .ok (e.map (.unary op)).ofTail
    | none =>
      if t.kind = .symbol .leftParen then
        match allowed with
        | 0 => .error (.tooDeep t.span.line)
        | allowed + 1 => do
          let e ← levels (readOperand final allowed) ts
          let close ← expect final (.symbol .rightParen) .closingParen e.rest
          .ok ((e.followedBy close).map fun _ => e.value).ofTail
      else
        match ofToken? t.kind with
        | some e => .ok (.one e)
        | none => .error (unexpected final .operand (t :: ts))

/-- Reads an expression; `final` is where the source ends. -/
def read (final : Span) : Reading Expr :=
  levels (readOperand final maxNesting)

/-- Reads an expression off the front of `ts`, and tells how many tokens it took. -/
def ofTokens (ts : List Token) : Except SyntaxError (Expr × Nat) := do
  let e ← read (lastSpan ts) ts
  .ok (e.value, ts.length - e.rest.length)

end Expr
end Pseudocode
