import Pseudocode.Decimal.Numeral
import Pseudocode.Environment
import Pseudocode.Expr

/-! # Evaluation

Both operands of a binary operator are evaluated, the left one first. Integer results are exact or
refused; an integer beside a decimal becomes the nearest double.
-/

namespace Pseudocode

inductive EvalError where
  | divisionByZero
  | undefinedVariable (name : String)
  | typeMismatch (operator : String) (left : ValueType) (right : Option ValueType)
  | overflow (operator : String)
  deriving DecidableEq, Repr

def EvalError.message : EvalError → String
  | .divisionByZero => "division by zero"
  | .undefinedVariable x => "undefined variable '" ++ x ++ "'"
  | .typeMismatch op l none => "type mismatch: '" ++ op ++ "' cannot be applied to " ++ l.name
  | .typeMismatch op l (some r) =>
    "type mismatch: '" ++ op ++ "' cannot be applied to " ++ l.name ++ " and " ++ r.name
  | .overflow op => "integer overflow in '" ++ op ++ "'"

def Environment.lookup (env : Environment) (x : String) : Except EvalError Value :=
  match env.get? x with
  | some v => .ok v
  | none => .error (.undefinedVariable x)

namespace ArithOp

def divides : ArithOp → Bool
  | .divide | .modulo => true
  | _ => false

/-- The result on integers, if it fits; a remainder is refused together with its quotient. -/
def onInt (op : ArithOp) (a b : Int64) : Option Int64 :=
  let (a, b) := (a.toInt, b.toInt)
  match op with
  | .add => Decimal.int64? (a + b)
  | .subtract => Decimal.int64? (a - b)
  | .multiply => Decimal.int64? (a * b)
  | .divide => Decimal.int64? (a.tdiv b)
  | .modulo => (Decimal.int64? (a.tdiv b)).bind fun _ => Decimal.int64? (a.tmod b)

def onFloat (op : ArithOp) (a b : Float) : Float :=
  match op with
  | .add => a + b
  | .subtract => a - b
  | .multiply => a * b
  | .divide => a / b
  | .modulo => Decimal.remainder a b

end ArithOp

/-- Which outcomes of a comparison make it true; `none` means that a NaN takes part. -/
def CompareOp.holds : CompareOp → Option Ordering → Bool
  | .notEqual, none => true
  | _, none => false
  | .equal, some o => o == .eq
  | .notEqual, some o => o != .eq
  | .less, some o => o == .lt
  | .lessEqual, some o => o != .gt
  | .greater, some o => o == .gt
  | .greaterEqual, some o => o != .lt

/-- Whether the operator orders truth values too. -/
def CompareOp.comparesBooleans : CompareOp → Bool
  | .equal | .notEqual => true
  | _ => false

def compareFloats (a b : Float) : Option Ordering :=
  if a < b then some .lt else if a == b then some .eq else if b < a then some .gt else none

def mismatch (operator : String) (l r : Value) : EvalError :=
  .typeMismatch operator l.type (some r.type)

def evalArith (op : ArithOp) (l r : Value) : Except EvalError Value :=
  let symbol := (BinaryOp.arith op).symbol
  match l, r with
  | .integer a, .integer b =>
    if op.divides && b == 0 then .error .divisionByZero
    else match op.onInt a b with
      | some n => .ok (.integer n)
      | none => .error (.overflow symbol)
  | _, _ =>
    match l.toFloat?, r.toFloat? with
    | some a, some b =>
      if op.divides && b == 0 then .error .divisionByZero
      else .ok (.decimal (op.onFloat a b))
    | _, _ => .error (mismatch symbol l r)

def evalCompare (op : CompareOp) (l r : Value) : Except EvalError Value :=
  let result (o : Option Ordering) : Except EvalError Value := .ok (.boolean (op.holds o))
  let refused : Except EvalError Value := .error (mismatch (BinaryOp.compare op).symbol l r)
  match l, r with
  | .integer a, .integer b => result (some (compare a.toInt b.toInt))
  | .text a, .text b => result (some (compare a b))
  | .boolean a, .boolean b =>
    if op.comparesBooleans then result (some (compare a b)) else refused
  | _, _ =>
    match l.toFloat?, r.toFloat? with
    | some a, some b => result (compareFloats a b)
    | _, _ => refused

def evalLogic (op : LogicOp) (l r : Value) : Except EvalError Value :=
  match l, r with
  | .boolean a, .boolean b =>
    match op with
    | .and => .ok (.boolean (a && b))
    | .or => .ok (.boolean (a || b))
  | _, _ => .error (mismatch (BinaryOp.logic op).symbol l r)

def evalBinary : BinaryOp → Value → Value → Except EvalError Value
  | .arith op, l, r => evalArith op l r
  | .compare op, l, r => evalCompare op l r
  | .logic op, l, r => evalLogic op l r

def evalUnary (op : UnaryOp) (v : Value) : Except EvalError Value :=
  match op, v with
  | .negate, .integer n =>
    match Decimal.int64? (-n.toInt) with
    | some m => .ok (.integer m)
    | none => .error (.overflow op.symbol)
  | .negate, .decimal d => .ok (.decimal (-d))
  | .not, .boolean b => .ok (.boolean !b)
  | _, _ => .error (.typeMismatch op.symbol v.type none)

def Expr.eval (env : Environment) : Expr → Except EvalError Value
  | .literal v => .ok v
  | .var x => env.lookup x
  | .unary op e => do evalUnary op (← e.eval env)
  | .binary l op r => do
    let a ← l.eval env
    let b ← r.eval env
    evalBinary op a b

end Pseudocode
