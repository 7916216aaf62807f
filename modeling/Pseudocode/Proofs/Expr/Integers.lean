import Pseudocode.Expr.Evaluation
import Pseudocode.Proofs.Decimal.Numeral

/-! # Arithmetic on integers

An expression over integers stands for a number without bounds. Evaluation gives that number, or it is
refused: by the first operator, operands before their operator and left before right, that divides by
zero or whose exact result is not an integer of 64 bits.
-/

namespace Pseudocode

def Fits (z : Int) : Prop :=
  -2 ^ 63 ≤ z ∧ z < 2 ^ 63

instance : DecidablePred Fits :=
  fun z => inferInstanceAs (Decidable (-2 ^ 63 ≤ z ∧ z < 2 ^ 63))

/-- The result on numbers without bounds. A quotient is cut off towards zero, and a remainder is what
is left over then. -/
def ArithOp.exact : ArithOp → Int → Int → Int
  | .add => (· + ·)
  | .subtract => (· - ·)
  | .multiply => (· * ·)
  | .divide => Int.tdiv
  | .modulo => Int.tmod

namespace Expr

/-- The expression is built from integers and variables that hold integers, with `+`, `-`, `*`, `/` and
the minus sign. -/
inductive IsInteger (env : Environment) : Expr → Prop where
  | literal (n : Int64) : IsInteger env (.literal (.integer n))
  | var {x : String} {n : Int64} : env.get? x = some (.integer n) → IsInteger env (.var x)
  | negate {e : Expr} : IsInteger env e → IsInteger env (.unary .negate e)
  | arith {l r : Expr} {op : ArithOp} :
    op ≠ .modulo → IsInteger env l → IsInteger env r → IsInteger env (.binary l (.arith op) r)

/-- The number that an expression over integers stands for; what is no integer counts as zero. -/
def exact (env : Environment) : Expr → Int
  | .literal (.integer n) => n.toInt
  | .var x =>
    match env.get? x with
    | some (.integer n) => n.toInt
    | _ => 0
  | .unary .negate e => -e.exact env
  | .binary l (.arith op) r => op.exact (l.exact env) (r.exact env)
  | _ => 0

/-- The expression and what is inside it, in the order of evaluation. -/
def nodes : Expr → List Expr
  | .literal v => [.literal v]
  | .var x => [.var x]
  | .unary op e => e.nodes ++ [.unary op e]
  | .binary l op r => l.nodes ++ (r.nodes ++ [.binary l op r])

/-- Why the outermost operator is refused, if it is: its divisor is zero, or else its exact result is
no integer of 64 bits. -/
def refusal? (env : Environment) : Expr → Option EvalError
  | .unary op e =>
    if Fits ((unary op e).exact env) then none else some (.overflow op.symbol)
  | .binary l (.arith op) r =>
    if op.divides ∧ r.exact env = 0 then some .divisionByZero
    else if Fits ((binary l (.arith op) r).exact env) then none
    else some (.overflow (BinaryOp.arith op).symbol)
  | _ => none

end Expr

variable {a b : Int64} {z w : Int} {op : ArithOp} {env : Environment} {l r e : Expr}
  {result : Except EvalError Value} {refused refused' : Option EvalError}

/-! ## Integers of 64 bits -/

theorem fits_toInt (n : Int64) : Fits n.toInt :=
  ⟨n.minValue_le_toInt, n.toInt_lt⟩

theorem Fits.toInt_ofInt (h : Fits z) : (Int64.ofInt z).toInt = z :=
  Int64.toInt_ofInt_of_le h.1 h.2

theorem Fits.int64? (h : Fits z) : Decimal.int64? z = some (.ofInt z) :=
  Decimal.int64?_eq_some_iff.mpr h.toInt_ofInt

theorem int64?_eq_none (h : ¬ Fits z) : Decimal.int64? z = none := by
  rw [Option.eq_none_iff_forall_ne_some]
  intro n hn
  rw [Decimal.int64?_eq_some_iff] at hn
  exact h (hn ▸ fits_toInt n)

theorem toInt_eq_zero_iff : a.toInt = 0 ↔ a = 0 := by
  rw [← Int64.toInt_inj, Int64.toInt_zero]

/-! ## Results that are exact or refused -/

/-- What may come of a calculation of `z`: the number, or the error that it is refused with. -/
inductive Gives (z : Int) : Option EvalError → Except EvalError Value → Prop where
  | value (n : Int64) : n.toInt = z → Gives z none (.ok (.integer n))
  | error (err : EvalError) : Gives z (some err) (.error err)

theorem Gives.toInt_eq {n : Int64} (h : Gives z refused (.ok (.integer n))) : n.toInt = z := by
  cases h with
  | value _ hn => exact hn

theorem Gives.bind {f : Value → Except EvalError Value} (h : Gives z refused result)
    (hf : ∀ n : Int64, n.toInt = z → Gives w refused' (f (.integer n))) :
    Gives w (refused.or refused') (result >>= f) := by
  cases h with
  | value n hn => exact hf n hn
  | error err => exact .error err

theorem evalNegate_gives (a : Int64) :
    Gives (-a.toInt) (if Fits (-a.toInt) then none else some (.overflow UnaryOp.negate.symbol))
      (evalUnary .negate (.integer a)) := by
  unfold evalUnary
  split
  case isTrue h =>
    simp only [h.int64?]
    exact .value _ h.toInt_ofInt
  case isFalse h =>
    simp only [int64?_eq_none h]
    exact .error _

theorem ArithOp.onInt_eq (hop : op ≠ .modulo) :
    op.onInt a b = Decimal.int64? (op.exact a.toInt b.toInt) := by
  cases op with
  | modulo => exact absurd rfl hop
  | _ => rfl

theorem evalArith_gives (hop : op ≠ .modulo) (a b : Int64) :
    Gives (op.exact a.toInt b.toInt)
      (if op.divides ∧ b.toInt = 0 then some .divisionByZero
        else if Fits (op.exact a.toInt b.toInt) then none
        else some (.overflow (BinaryOp.arith op).symbol))
      (evalArith op (.integer a) (.integer b)) := by
  simp only [evalArith, Bool.and_eq_true, beq_iff_eq, toInt_eq_zero_iff, ArithOp.onInt_eq hop]
  split
  case isTrue => exact .error _
  case isFalse =>
    split
    case isTrue h =>
      simp only [h.int64?]
      exact .value _ h.toInt_ofInt
    case isFalse h =>
      simp only [int64?_eq_none h]
      exact .error _

/-! ## Expressions -/

namespace Expr

def firstRefusal? (env : Environment) (e : Expr) : Option EvalError :=
  e.nodes.findSome? (refusal? env)

theorem firstRefusal?_unary (op : UnaryOp) (e : Expr) :
    (unary op e).firstRefusal? env = (e.firstRefusal? env).or ((unary op e).refusal? env) := by
  rw [firstRefusal?, nodes, List.findSome?_append, List.findSome?_singleton]
  rfl

theorem firstRefusal?_binary (l : Expr) (op : BinaryOp) (r : Expr) :
    (binary l op r).firstRefusal? env =
      (l.firstRefusal? env).or ((r.firstRefusal? env).or ((binary l op r).refusal? env)) := by
  rw [firstRefusal?, nodes, List.findSome?_append, List.findSome?_append, List.findSome?_singleton]
  rfl

theorem firstRefusal?_eq_none_iff :
    e.firstRefusal? env = none ↔ ∀ d ∈ e.nodes, d.refusal? env = none :=
  List.findSome?_eq_none_iff

theorem firstRefusal?_eq_some_iff {err : EvalError} :
    e.firstRefusal? env = some err ↔ ∃ before d after, e.nodes = before ++ d :: after ∧
      (∀ c ∈ before, c.refusal? env = none) ∧ d.refusal? env = some err := by
  rw [firstRefusal?, List.findSome?_eq_some_iff]
  constructor
  · rintro ⟨before, d, after, hnodes, hd, hbefore⟩
    exact ⟨before, d, after, hnodes, hbefore, hd⟩
  · rintro ⟨before, d, after, hnodes, hbefore, hd⟩
    exact ⟨before, d, after, hnodes, hd, hbefore⟩

theorem IsInteger.gives (h : e.IsInteger env) :
    Gives (e.exact env) (e.firstRefusal? env) (e.eval env) := by
  induction h with
  | literal n => exact .value n rfl
  | @var x n h =>
    rw [eval, Environment.lookup, exact, h]
    exact .value n rfl
  | @negate e _ ih =>
    rw [firstRefusal?_unary]
    refine ih.bind fun a ha => ?_
    rw [refusal?, exact, ← ha]
    exact evalNegate_gives a
  | @arith l r op hop _ _ ihl ihr =>
    rw [firstRefusal?_binary]
    refine ihl.bind fun a ha => ihr.bind fun b hb => ?_
    rw [refusal?, exact, ← ha, ← hb]
    exact evalArith_gives hop a b

/-- Arithmetic on integers is exact, or refused at the first operator that has to be. -/
theorem eval_exact (h : e.IsInteger env) :
    ((∃ n, e.eval env = .ok (.integer n)) ↔ ∀ d ∈ e.nodes, d.refusal? env = none) ∧
    (∀ n, e.eval env = .ok (.integer n) → n.toInt = e.exact env) ∧
    ∀ err, e.eval env = .error err ↔
      ∃ before d after, e.nodes = before ++ d :: after ∧
        (∀ c ∈ before, c.refusal? env = none) ∧ d.refusal? env = some err := by
  have hgives := h.gives
  simp only [← firstRefusal?_eq_none_iff, ← firstRefusal?_eq_some_iff]
  generalize e.firstRefusal? env = refused, e.eval env = result at hgives ⊢
  refine ⟨?_, fun n hn => (hn ▸ hgives).toInt_eq, ?_⟩
  · cases hgives <;> simp
  · cases hgives <;> simp

/-- In `(x + 1) * (1 / 0)` the sum is refused before the quotient is looked at, if `x` is as large as
can be. -/
theorem eval_exact_sum :
    let env := NameMap.empty.insert "x" (.integer Int64.maxValue)
    let sum := binary (.var "x") (.arith .add) (.literal (.integer 1))
    let quotient := binary (.literal (.integer 1)) (.arith .divide) (.literal (.integer 0))
    IsInteger env (.binary sum (.arith .multiply) quotient) ∧
      (binary sum (.arith .multiply) quotient).eval env = .error (.overflow "+") := by
  intro env sum quotient
  have hsum : IsInteger env sum := .arith (by decide) (.var rfl) (.literal 1)
  have hquotient : IsInteger env quotient := .arith (by decide) (.literal 1) (.literal 0)
  have h : IsInteger env (.binary sum (.arith .multiply) quotient) := .arith (by decide) hsum hquotient
  refine ⟨h, ((eval_exact h).2.2 _).mpr ⟨[.var "x", .literal (.integer 1)], sum, _, rfl, ?_, by decide⟩⟩
  decide

end Expr
end Pseudocode
