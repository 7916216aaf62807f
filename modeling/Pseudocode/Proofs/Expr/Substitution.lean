import Pseudocode.Expr.Evaluation

/-! # Variables of an expression

Evaluation looks at the environment only where a variable occurs. A variable can be replaced by any
expression that has its value, by the literal of that value before all.
-/

namespace Pseudocode

namespace Expr

def vars : Expr → List String
  | .literal _ => []
  | .var x => [x]
  | .unary _ e => e.vars
  | .binary l _ r => l.vars ++ r.vars

/-- The expression with `d` in place of every occurrence of the variable `x`. -/
def subst (e : Expr) (x : String) (d : Expr) : Expr :=
  match e with
  | .literal v => .literal v
  | .var y => if y = x then d else .var y
  | .unary op e => .unary op (e.subst x d)
  | .binary l op r => .binary (l.subst x d) op (r.subst x d)

variable {env env' : Environment} {x : String} {v : Value} {d e : Expr}

/-- The environment matters only through the variables that occur. -/
theorem eval_congr (h : ∀ y ∈ e.vars, env.get? y = env'.get? y) : e.eval env = e.eval env' := by
  induction e with
  | literal v => rfl
  | var y =>
    have hy : env.get? y = env'.get? y := h y List.mem_cons_self
    rw [eval, eval, Environment.lookup, Environment.lookup, hy]
  | unary op e ih => rw [eval, eval, ih h]
  | binary l op r ihl ihr =>
    have hl : l.eval env = l.eval env' := ihl fun y hy => h y (List.mem_append_left _ hy)
    have hr : r.eval env = r.eval env' := ihr fun y hy => h y (List.mem_append_right _ hy)
    rw [eval, eval, hl, hr]

theorem eval_subst_var (hd : d.eval env = .ok v) (y : String) :
    ((var y).subst x d).eval env = (var y).eval (env.insert x v) := by
  rw [subst, eval, Environment.lookup, NameMap.get?_insert]
  by_cases hy : y = x
  · rw [if_pos hy, if_pos hy, hd]
  · rw [if_neg hy, if_neg hy, eval, Environment.lookup]

/-- An expression in place of a variable does what its value does in the environment, whatever else fails
before or after it. -/
theorem eval_subst (hd : d.eval env = .ok v) (e : Expr) :
    (e.subst x d).eval env = e.eval (env.insert x v) := by
  induction e with
  | literal w => rfl
  | var y => exact eval_subst_var hd y
  | unary op e ih => rw [subst, eval, eval, ih]
  | binary l op r ihl ihr => rw [subst, eval, eval, ihl, ihr]

theorem mem_vars_subst_literal {y : String} :
    y ∈ (e.subst x (.literal v)).vars ↔ y ∈ e.vars ∧ y ≠ x := by
  induction e with
  | literal w => simp [subst, vars]
  | var z =>
    by_cases hz : z = x
    · simp +contextual [subst, vars, hz]
    · rw [subst, if_neg hz, vars, List.mem_singleton]
      exact ⟨fun h => ⟨h, h ▸ hz⟩, fun h => h.1⟩
  | unary op e ih => exact ih
  | binary l op r ihl ihr =>
    rw [subst, vars, vars, List.mem_append, List.mem_append, ihl, ihr, or_and_right]

/-- A literal in place of a variable does what its value in the environment does, and the environment
matters through no other variable than those that occur. -/
theorem eval_subst_literal (e : Expr) (env : Environment) :
    (∀ x v, (e.subst x (.literal v)).eval env = e.eval (env.insert x v) ∧
      ∀ y, y ∈ (e.subst x (.literal v)).vars ↔ y ∈ e.vars ∧ y ≠ x) ∧
    ∀ env' : Environment, (∀ y ∈ e.vars, env.get? y = env'.get? y) → e.eval env = e.eval env' :=
  ⟨fun _ _ => ⟨eval_subst rfl e, fun _ => mem_vars_subst_literal⟩, fun _ => eval_congr⟩

/-- A variable that does not occur makes no difference, not even to the error. -/
theorem eval_subst_literal_quotient :
    let e := binary (.var "x") (.arith .divide) (binary (.var "x") (.arith .subtract) (.var "x"))
    let env := NameMap.empty.insert "x" (.integer 1)
    let env' := env.insert "y" (.integer 2)
    (∀ y ∈ e.vars, env.get? y = env'.get? y) ∧ e.eval env = e.eval env' ∧
      e.eval env' = .error .divisionByZero := by
  intro e env env'
  have h : ∀ y ∈ e.vars, env.get? y = env'.get? y := by decide
  exact ⟨h, (eval_subst_literal e env).2 env' h, rfl⟩

end Expr
end Pseudocode
