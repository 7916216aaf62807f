import Pseudocode.Expr.Evaluation

/-! # Types of expressions

Evaluation meets types only as it goes. They can be told beforehand, from the types of the
variables alone: an expression with a type fails by its arithmetic only, and one without a type
never has a value.
-/

namespace Pseudocode

def ValueType.isNumeric : ValueType → Bool
  | .integer | .decimal => true
  | .boolean | .text => false

def UnaryOp.type? : UnaryOp → ValueType → Option ValueType
  | .negate, .integer => some .integer
  | .negate, .decimal => some .decimal
  | .not, .boolean => some .boolean
  | _, _ => none

def BinaryOp.type? : BinaryOp → ValueType → ValueType → Option ValueType
  | .arith _, .integer, .integer => some .integer
  | .arith _, s, t => if s.isNumeric && t.isNumeric then some .decimal else none
  | .compare _, .text, .text => some .boolean
  | .compare .equal, .boolean, .boolean | .compare .notEqual, .boolean, .boolean => some .boolean
  | .compare _, s, t => if s.isNumeric && t.isNumeric then some .boolean else none
  | .logic _, .boolean, .boolean => some .boolean
  | .logic _, _, _ => none

/-- The type of an expression over variables of the types `Γ`. -/
def Expr.type? (Γ : String → Option ValueType) : Expr → Option ValueType
  | .literal v => some v.type
  | .var x => Γ x
  | .unary op e => do op.type? (← e.type? Γ)
  | .binary l op r => do
    let s ← l.type? Γ
    let t ← r.type? Γ
    op.type? s t

def Environment.types (env : Environment) (x : String) : Option ValueType :=
  (env.get? x).map Value.type

/-! ### Results that agree with a type -/

/-- What an expression of the type may come to. -/
inductive ValueType.Admits (t : ValueType) : Except EvalError Value → Prop
  | value (v : Value) (h : v.type = t) : t.Admits (.ok v)
  | divisionByZero : t.Admits (.error .divisionByZero)
  | overflow (op : String) : t.Admits (.error (.overflow op))

/-- A type admits the result; without a type there is only an error. -/
def Agrees (r : Except EvalError Value) : Option ValueType → Prop
  | some t => t.Admits r
  | none => ∃ e, r = .error e

variable {r : Except EvalError Value} {ty : Option ValueType}

theorem agrees_ok (v : Value) : Agrees (.ok v) (some v.type) :=
  .value v rfl

theorem agrees_divisionByZero : Agrees (.error .divisionByZero) ty := by
  cases ty with
  | none => exact ⟨_, rfl⟩
  | some t => exact .divisionByZero

theorem agrees_overflow (op : String) : Agrees (.error (.overflow op)) ty := by
  cases ty with
  | none => exact ⟨_, rfl⟩
  | some t => exact .overflow op

theorem Agrees.bind {f : Value → Except EvalError Value} {g : ValueType → Option ValueType}
    (h : Agrees r ty) (hf : ∀ v, Agrees (f v) (g v.type)) : Agrees (r >>= f) (ty >>= g) := by
  cases ty with
  | none =>
    obtain ⟨e, rfl⟩ := h
    exact ⟨e, rfl⟩
  | some t =>
    cases h with
    | value v h => subst h; exact hf v
    | divisionByZero => exact agrees_divisionByZero
    | overflow op => exact agrees_overflow op

/-! ### Operators -/

/-- A division by zero, and otherwise a value of the type: the shape of arithmetic on doubles. -/
theorem agrees_ite {c : Prop} [Decidable c] (v : Value) :
    Agrees (if c then .error .divisionByZero else .ok v) (some v.type) := by
  split
  · exact agrees_divisionByZero
  · exact agrees_ok v

theorem evalUnary_agrees (op : UnaryOp) (v : Value) : Agrees (evalUnary op v) (op.type? v.type) := by
  cases op <;> cases v
  case negate.integer n =>
    simp only [evalUnary]
    cases Decimal.int64? (-n.toInt) with
    | none => exact agrees_overflow _
    | some m => exact agrees_ok (.integer m)
  case negate.decimal d => exact agrees_ok (.decimal (-d))
  case not.boolean b => exact agrees_ok (.boolean !b)
  all_goals exact ⟨_, rfl⟩

theorem evalArith_agrees (op : ArithOp) (l r : Value) :
    Agrees (evalArith op l r) ((BinaryOp.arith op).type? l.type r.type) := by
  cases l <;> cases r
  case integer.integer a b =>
    simp only [evalArith]
    split
    · exact agrees_divisionByZero
    · cases op.onInt a b with
      | none => exact agrees_overflow _
      | some n => exact agrees_ok (.integer n)
  case integer.decimal | decimal.integer | decimal.decimal => exact agrees_ite (.decimal _)
  all_goals exact ⟨_, rfl⟩

theorem evalCompare_agrees (op : CompareOp) (l r : Value) :
    Agrees (evalCompare op l r) ((BinaryOp.compare op).type? l.type r.type) := by
  cases l <;> cases r
  case boolean.boolean a b =>
    cases op
    case equal | notEqual => exact agrees_ok (.boolean _)
    all_goals exact ⟨_, rfl⟩
  case integer.integer | text.text | integer.decimal | decimal.integer | decimal.decimal =>
    cases op <;> exact agrees_ok (.boolean _)
  all_goals cases op <;> exact ⟨_, rfl⟩

theorem evalLogic_agrees (op : LogicOp) (l r : Value) :
    Agrees (evalLogic op l r) ((BinaryOp.logic op).type? l.type r.type) := by
  cases l <;> cases r
  case boolean.boolean a b => cases op <;> exact agrees_ok (.boolean _)
  all_goals exact ⟨_, rfl⟩

theorem evalBinary_agrees (op : BinaryOp) (l r : Value) :
    Agrees (evalBinary op l r) (op.type? l.type r.type) := by
  cases op with
  | arith op => exact evalArith_agrees op l r
  | compare op => exact evalCompare_agrees op l r
  | logic op => exact evalLogic_agrees op l r

/-! ### Expressions -/

theorem Environment.lookup_agrees (env : Environment) (x : String) :
    Agrees (env.lookup x) (env.types x) := by
  rw [lookup, types]
  cases env.get? x with
  | none => exact ⟨_, rfl⟩
  | some v => exact agrees_ok v

theorem Expr.eval_agrees (env : Environment) (e : Expr) :
    Agrees (e.eval env) (e.type? env.types) := by
  induction e with
  | literal v => exact agrees_ok v
  | var x => exact env.lookup_agrees x
  | unary op e ih => exact ih.bind (evalUnary_agrees op)
  | binary l op r ihl ihr => exact ihl.bind fun a => ihr.bind (evalBinary_agrees op a)

variable {env : Environment} {e : Expr}

theorem Expr.eval_ne_ok (h : e.type? env.types = none) (v : Value) : e.eval env ≠ .ok v := by
  obtain ⟨_, he⟩ : Agrees (e.eval env) none := h ▸ e.eval_agrees env
  simp [he]

theorem Expr.type?_binary_eq_none {l r : Expr} {Γ : String → Option ValueType} (op : BinaryOp)
    (h : l.type? Γ = none ∨ r.type? Γ = none) : (Expr.binary l op r).type? Γ = none := by
  rcases h with h | h
  · simp [type?, h]
  · cases hl : l.type? Γ <;> simp [type?, h, hl]

/-- Types are sound and complete; no side of a logic operator hides the other. -/
theorem Expr.eval_typed (env : Environment) (e : Expr) :
    (∀ t, e.type? env.types = some t →
      (∃ v, e.eval env = .ok v ∧ v.type = t) ∨ e.eval env = .error .divisionByZero ∨
        ∃ op, e.eval env = .error (.overflow op)) ∧
    (e.type? env.types = none → (∀ v, e.eval env ≠ .ok v) ∧
      ∀ op f v, (Expr.binary e (.logic op) f).eval env ≠ .ok v ∧
        (Expr.binary f (.logic op) e).eval env ≠ .ok v) := by
  constructor
  · intro t ht
    have agrees : t.Admits (e.eval env) := by simpa [ht, Agrees] using e.eval_agrees env
    cases h : e.eval env <;> rw [h] at agrees <;> cases agrees
    case ok.value v h => exact .inl ⟨v, rfl, h⟩
    case error.divisionByZero => exact .inr (.inl rfl)
    case error.overflow op => exact .inr (.inr ⟨op, rfl⟩)
  · intro hn
    refine ⟨eval_ne_ok hn, fun op f v => ⟨?_, ?_⟩⟩
    · exact eval_ne_ok (type?_binary_eq_none _ (.inl hn)) v
    · exact eval_ne_ok (type?_binary_eq_none _ (.inr hn)) v

/-- The left side decides, and the right one is refused all the same. -/
example : (Expr.binary (.literal (.boolean true)) (.logic .or) (.literal (.integer 1))).eval env =
    .error (.typeMismatch "O" .boolean (some .integer)) :=
  rfl

end Pseudocode
