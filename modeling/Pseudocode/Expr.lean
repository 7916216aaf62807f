import Pseudocode.Value

/-! # Expressions -/

namespace Pseudocode

inductive ArithOp where
  | add | subtract | multiply | divide | modulo
  deriving DecidableEq, Repr

inductive CompareOp where
  | equal | notEqual | less | lessEqual | greater | greaterEqual
  deriving DecidableEq, Repr

inductive LogicOp where
  | and | or
  deriving DecidableEq, Repr

inductive BinaryOp where
  | arith (op : ArithOp)
  | compare (op : CompareOp)
  | logic (op : LogicOp)
  deriving DecidableEq, Repr

inductive UnaryOp where
  | negate
  | not
  deriving DecidableEq, Repr

inductive Expr where
  | literal (v : Value)
  | var (name : String)
  | unary (op : UnaryOp) (operand : Expr)
  | binary (left : Expr) (op : BinaryOp) (right : Expr)
  deriving DecidableEq

namespace BinaryOp

def symbol : BinaryOp → String
  | .arith .add => "+"
  | .arith .subtract => "-"
  | .arith .multiply => "*"
  | .arith .divide => "/"
  | .arith .modulo => "MOD"
  | .compare .equal => "="
  | .compare .notEqual => "<>"
  | .compare .less => "<"
  | .compare .lessEqual => "<="
  | .compare .greater => ">"
  | .compare .greaterEqual => ">="
  | .logic .and => "Y"
  | .logic .or => "O"

/-- How tightly an operator binds, from 1 to 5. -/
def precedence : BinaryOp → Nat
  | .logic .or => 1
  | .logic .and => 2
  | .compare _ => 3
  | .arith .add | .arith .subtract => 4
  | .arith .multiply | .arith .divide | .arith .modulo => 5

end BinaryOp

def UnaryOp.symbol : UnaryOp → String
  | .negate => "-"
  | .not => "NO"

namespace Expr

def isBinary : Expr → Bool
  | .binary .. => true
  | _ => false

/-- Equality with decimals compared as numbers. -/
def same : Expr → Expr → Bool
  | .literal v, .literal w => v.same w
  | .var x, .var y => x = y
  | .unary op e, .unary op' e' => op = op' && e.same e'
  | .binary l op r, .binary l' op' r' => op = op' && l.same l' && r.same r'
  | _, _ => false

end Expr
end Pseudocode
