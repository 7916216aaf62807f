import Pseudocode.Expr

/-! # Expressions as text

Only the parentheses that the tree needs are written: around a binary operand that binds less
tightly than its operator, or as tightly and stands on the right, and around a binary operand of a
unary operator.
-/

namespace Pseudocode

/-- A unary operator as it stands before its operand. -/
def UnaryOp.lead : UnaryOp → String
  | .negate => "-"
  | .not => "NO "

namespace Expr

/-- Whether an operand of an operator of precedence `parent` stands in parentheses. -/
def needsParens (parent : Nat) (onRight : Bool) : Expr → Bool
  | .binary _ op _ => op.precedence < parent || (onRight && op.precedence == parent)
  | _ => false

def parenthesize (needed : Bool) (s : String) : String :=
  if needed then "(" ++ s ++ ")" else s

def render : Expr → String
  | .literal v => v.literal
  | .var x => x
  | .unary op e => op.lead ++ parenthesize e.isBinary e.render
  | .binary l op r =>
    parenthesize (l.needsParens op.precedence false) l.render ++ " " ++ op.symbol ++ " " ++
      parenthesize (r.needsParens op.precedence true) r.render

end Expr
end Pseudocode
