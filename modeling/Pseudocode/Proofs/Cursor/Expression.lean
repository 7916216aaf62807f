import Pseudocode.Proofs.Cursor.Following

/-! # Walks through expressions

Every operator and every operand is walked through with a token that is looked at before it is passed.
-/

namespace Pseudocode

variable {ts us : List Token} {t : Token} {lo d allowed bound fuel : Nat} {c : Cursor}

namespace Walk

variable (ts)

def levelFrom (precedence : Nat) (operand : Walk Expr) : Nat → Expr → Walk Expr
  | 0, _ => throw .outOfFuel
  | fuel + 1, left => do
    match (← peek? ts).bind (Expr.operatorAt? precedence) with
    | none => return left
    | some op =>
      pass
      let right ← operand
      levelFrom precedence operand fuel (.binary left op right)

def level (precedence fuel : Nat) (operand : Walk Expr) : Walk Expr := part do
  let left ← operand
  levelFrom ts precedence operand fuel left

def levels (fuel : Nat) (operand : Walk Expr) : Walk Expr :=
  level ts 1 fuel (level ts 2 fuel (level ts 3 fuel (level ts 4 fuel (level ts 5 fuel operand))))

/-- Walks through an operand that no unary operator stands before; `inner` goes through what stands in
parentheses. -/
def primary (inner : Walk Expr) : Walk Expr := part do
  let next ← peek? ts
  if next.map Token.kind = some (.symbol .leftParen) then
    let line ← line ts
    pass
    let e ← deeper .operator line inner
    expect ts (.symbol .rightParen) .closingParen
    return e
  else
    match next.bind (Expr.ofToken? ·.kind) with
    | some e =>
      pass
      return e
    | none => refuseToken ts .operand

def unary : Nat → Walk Expr
  | 0 => throw .outOfFuel
  | fuel + 1 => part do
    match (← peek? ts).bind (UnaryOp.ofToken? ·.kind) with
    | some op =>
      let line ← line ts
      pass
      let e ← deeper .operator line (unary fuel)
      return .unary op e
    | none => primary ts (levels ts fuel (unary fuel))

def expression (fuel : Nat) : Walk Expr :=
  levels ts fuel (unary ts fuel)

variable {ts}

/-! ## What they follow -/

theorem does_expect {kind : TokenKind} {expected : Expectation} (hc : c.At ts us) :
    Does ts (Walk.expect ts kind expected) c (2 * c.position + 2) 0
      (Parsed.reached c.directives <$> Pseudocode.expect (lastSpan ts) kind expected us) := by
  cases us with
  | nil => exact .peek hc (.refuseToken hc (Nat.le_refl _))
  | cons t us =>
    refine .peek hc ?_
    rw [Pseudocode.expect, List.head?_cons, Option.map_some]
    by_cases ht : t.kind = kind
    · rw [if_pos ht, if_pos (congrArg some ht)]
      exact does_pass hc
    · rw [if_neg ht, if_neg fun h => ht (Option.some.inj h)]
      exact .refuseToken hc (Nat.le_refl _)

theorem does_levelFrom (precedence : Nat) {operand : Walk Expr} {read : Reading Expr}
    (hop : Follows ts allowed bound operand read) (left : Parsed Expr us) (fuel : Nat)
    (hc : c.At ts left.rest) (ho : c.operators + allowed = maxNesting) (hb : left.rest.length ≤ bound)
    (hf : left.rest.length < fuel) :
    Does ts (levelFrom ts precedence operand fuel left.value) c (2 * c.position) 0
      (Parsed.reached c.directives <$> Expr.chainFrom precedence read left) := by
  fun_induction Expr.chainFrom precedence read left generalizing c fuel with
  | case1 left h =>
    obtain ⟨fuel, rfl⟩ := Nat.exists_eq_succ_of_ne_zero (Nat.ne_zero_of_lt hf)
    refine .peek hc ?_
    rw [h]
    exact .pure (h ▸ hc) rfl (Nat.le_refl _)
  | case2 left t rest h hnone =>
    obtain ⟨fuel, rfl⟩ := Nat.exists_eq_succ_of_ne_zero (Nat.ne_zero_of_lt hf)
    refine .peek hc ?_
    rw [h, List.head?_cons, Option.bind_some, hnone]
    exact .pure hc rfl (Nat.le_refl _)
  | case3 left t rest h op hsome ih =>
    obtain ⟨fuel, rfl⟩ := Nat.exists_eq_succ_of_ne_zero (Nat.ne_zero_of_lt hf)
    refine .peek hc ?_
    rw [h, List.head?_cons, Option.bind_some, hsome, map_bind]
    rw [h, List.length_cons] at hb hf
    rw [h] at hc
    refine .pass hc.lt (.read ((hop _ _ hc.passed ho hb).mono (Nat.le_add_right _ 4)) ?_)
    intro right c' hat hds hg
    have hlt := right.shorter
    have hmore := ih right fuel hat (by rw [hg.operators, Cursor.passed_operators, ho])
      (show right.rest.length ≤ bound by omega) (show right.rest.length < fuel by omega)
    rwa [hds] at hmore

theorem Follows.level {precedence : Nat} {operand : Walk Expr} {read : Reading Expr}
    (hop : Follows ts allowed bound operand read) (hf : bound ≤ fuel) :
    Follows ts allowed bound (level ts precedence fuel operand) (Expr.chain precedence read) := by
  intro c us hc ho hlt
  rw [Expr.chain, map_bind]
  refine .part (.read (hop _ _ (hc.note _) ho hlt) ?_) hc.le (by omega)
  intro left c' hat hds hg
  have hshorter := left.shorter
  have hmore := does_levelFrom precedence hop left fuel hat
    (by rw [hg.operators, Cursor.note_operators, ho]) (by omega) (by omega)
  rwa [hds] at hmore

theorem Follows.levels {operand : Walk Expr} {read : Reading Expr}
    (hop : Follows ts allowed bound operand read) (hf : bound ≤ fuel) :
    Follows ts allowed bound (levels ts fuel operand) (Expr.levels read) :=
  ((((hop.level hf).level hf).level hf).level hf).level hf

theorem does_primary {inner : Walk Expr}
    (hinner : ∀ m, allowed = m + 1 →
      Follows ts m bound inner (Expr.levels (Expr.readOperand (lastSpan ts) m)))
    (hc : c.At ts us) (ho : c.operators + allowed = maxNesting) (hb : us.length ≤ bound)
    (hop : us.head?.bind (UnaryOp.ofToken? ·.kind) = none) :
    Does ts (primary ts inner) c (2 * c.position + 2) 0
      (Parsed.reached c.directives <$> Expr.readOperand (lastSpan ts) allowed us) := by
  refine .part (.peek (hc.note _) ?_) hc.le (by omega)
  rw [Expr.readOperand.eq_def]
  cases us with
  | nil => exact .refuseToken (hc.note _) (Nat.le_refl _)
  | cons t us =>
    rw [List.head?_cons, Option.bind_some] at hop
    rw [List.head?_cons, Option.map_some, Option.bind_some]
    simp only [hop]
    by_cases hp : t.kind = .symbol .leftParen
    · rw [if_pos hp, if_pos (congrArg some hp)]
      refine .line (hc.note _) (.pass hc.lt ?_)
      cases allowed with
      | zero => exact .fail (.tooDeep (hc.note _).passed ho (Nat.le_add_right _ 2))
      | succ m =>
        simp only [map_bind]
        refine .read ((hinner m rfl).deeper (hc.note _).passed ho (Nat.lt_of_succ_le hb)) ?_
        intro e c' hat hds _
        refine .read ((does_expect hat).mono (Nat.le_add_right _ 2)) ?_
        intro close c'' hat' hds' _
        exact .pure hat' (hds'.trans hds) (Nat.le_refl _)
    · rw [if_neg hp, if_neg fun h => hp (Option.some.inj h)]
      cases hlit : Expr.ofToken? t.kind with
      | some e => exact .pass hc.lt (.pure (hc.note _).passed rfl (Nat.le_refl _))
      | none => exact .refuseToken (hc.note _) (Nat.le_refl _)

theorem follows_unary (fuel allowed : Nat) :
    Follows ts allowed fuel (unary ts fuel) (Expr.readOperand (lastSpan ts) allowed) := by
  induction fuel generalizing allowed with
  | zero => exact fun c us _ _ hlt => absurd hlt (Nat.not_lt_zero _)
  | succ fuel ih =>
    intro c us hc ho hlt
    refine .part (.peek (hc.note _) ?_) hc.le (by omega)
    cases hop : us.head?.bind (UnaryOp.ofToken? ·.kind) with
    | none =>
      exact does_primary (fun m _ => (ih m).levels (Nat.le_refl _)) (hc.note _) ho (Nat.le_of_lt_succ hlt) hop
    | some op =>
      obtain ⟨t, us, rfl⟩ : ∃ t us', us = t :: us' := by
        cases us with
        | nil => cases hop
        | cons t us => exact ⟨t, us, rfl⟩
      rw [List.head?_cons, Option.bind_some] at hop
      rw [Expr.readOperand.eq_def]
      simp only [hop]
      refine .line (hc.note _) (.pass hc.lt ?_)
      cases allowed with
      | zero => exact .fail (.tooDeep (hc.note _).passed ho (Nat.le_add_right _ 2))
      | succ m =>
        simp only [map_bind]
        refine .read ((ih m).deeper (hc.note _).passed ho (Nat.lt_of_succ_lt_succ hlt)) ?_
        intro e c' hat hds _
        exact .pure hat hds (Nat.le_refl _)

theorem does_expression (hc : c.At ts us) (ho : c.operators = 0) (hf : us.length < fuel) :
    Does ts (expression ts fuel) c (2 * c.position + 2) 0
      (Parsed.reached c.directives <$> Expr.read (lastSpan ts) us) :=
  (follows_unary fuel maxNesting).levels (Nat.le_refl _) c us hc (by rw [ho, Nat.zero_add]) hf

end Walk
end Pseudocode
