import Pseudocode.Proofs.Expr.Integers

/-! # Remainders

The remainder of two integers is what their quotient, cut off towards zero, leaves over. It always is
an integer of 64 bits, but the operator is refused where the quotient is: at the least integer and `-1`.
Nowhere else does an operator overflow whose exact result fits.
-/

namespace Pseudocode

/-- `z` is left over of `a` when multiples of `b` are taken off: it is smaller than `b`, and it is zero
or has the sign of `a`. -/
structure IsRemainder (a b z : Int) : Prop where
  multiple : b ∣ a - z
  smaller : z.natAbs < b.natAbs
  sign : z = 0 ∨ z.sign = a.sign

variable {a b y z : Int} {m n : Int64} {env : Environment} {l r e : Expr} {s : String}

/-! ## Exact remainders -/

namespace IsRemainder

theorem nonneg (h : IsRemainder a b z) (ha : 0 ≤ a) : 0 ≤ z := by
  rcases h.sign with rfl | hsign
  · exact le_rfl
  · rwa [← Int.sign_nonneg_iff, hsign, Int.sign_nonneg_iff]

theorem nonpos (h : IsRemainder a b z) (ha : a ≤ 0) : z ≤ 0 := by
  rcases h.sign with rfl | hsign
  · exact le_rfl
  · rwa [← Int.sign_nonpos_iff, hsign, Int.sign_nonpos_iff]

/-- Two remainders are on the same side of zero, and so a multiple of `b` does not fit between them. -/
theorem unique (hy : IsRemainder a b y) (hz : IsRemainder a b z) : y = z := by
  have hdvd : b ∣ y - z := by
    have hsub := Int.dvd_sub hz.multiple hy.multiple
    rwa [sub_sub_sub_cancel_left] at hsub
  have hlt : (y - z).natAbs < b.natAbs := by
    have hysmaller := hy.smaller
    have hzsmaller := hz.smaller
    rcases le_total 0 a with ha | ha
    · have hynonneg := hy.nonneg ha
      have hznonneg := hz.nonneg ha
      omega
    · have hynonpos := hy.nonpos ha
      have hznonpos := hz.nonpos ha
      omega
  exact sub_eq_zero.mp (Int.eq_zero_of_dvd_of_natAbs_lt_natAbs hdvd hlt)

theorem fits (h : IsRemainder a b z) (hb : Fits b) : Fits z := by
  have hsmaller := h.smaller
  unfold Fits at hb ⊢
  omega

end IsRemainder

theorem isRemainder_tmod (a : Int) (hb : b ≠ 0) : IsRemainder a b (a.tmod b) := by
  refine ⟨?_, ?_, ?_⟩
  · rw [Int.tmod_def, sub_sub_cancel]
    exact Int.dvd_mul_right b _
  · rw [Int.natAbs_tmod]
    exact Nat.mod_lt _ (Int.natAbs_pos.mpr hb)
  · rw [Int.sign_tmod]
    split
    case isTrue hdvd => exact .inl (Int.tmod_eq_zero_of_dvd hdvd)
    case isFalse => exact .inr rfl

theorem isRemainder_iff (hb : b ≠ 0) : IsRemainder a b z ↔ z = a.tmod b := by
  constructor
  · intro h
    exact h.unique (isRemainder_tmod a hb)
  · rintro rfl
    exact isRemainder_tmod a hb

/-! ## Quotients -/

theorem fits_tdiv_iff (ha : Fits a) (hb : b ≠ 0) :
    Fits (a.tdiv b) ↔ ¬ (a = -2 ^ 63 ∧ b = -1) := by
  by_cases hneg : b = -1
  · rw [hneg, Int.tdiv_neg, Int.tdiv_one]
    unfold Fits at ha ⊢
    omega
  · refine iff_of_true ?_ (fun h => hneg h.2)
    by_cases hone : b = 1
    · rwa [hone, Int.tdiv_one]
    · have hle : (a.tdiv b).natAbs ≤ a.natAbs / 2 := by
        rw [Int.natAbs_tdiv]
        exact Nat.div_le_div_left (by omega) (by decide)
      unfold Fits at ha ⊢
      omega

theorem fits_tdiv_toInt_iff (hn : n ≠ 0) :
    Fits (m.toInt.tdiv n.toInt) ↔ ¬ (m = .minValue ∧ n = -1) := by
  have hzero : n.toInt ≠ 0 := mt toInt_eq_zero_iff.mp hn
  rw [fits_tdiv_iff (fits_toInt m) hzero, ← Int64.toInt_inj, ← Int64.toInt_inj]
  rfl

/-! ## The operators -/

theorem ArithOp.onInt_modulo (hn : n ≠ 0) :
    ArithOp.modulo.onInt m n =
      if m = .minValue ∧ n = -1 then none else some (.ofInt (m.toInt.tmod n.toInt)) := by
  have hzero : n.toInt ≠ 0 := mt toInt_eq_zero_iff.mp hn
  have hfits := (isRemainder_tmod m.toInt hzero).fits (fits_toInt n)
  simp only [onInt]
  by_cases h : m = .minValue ∧ n = -1
  · rw [if_pos h, int64?_eq_none (mt (fits_tdiv_toInt_iff hn).mp (not_not_intro h)), Option.bind_none]
  · rw [if_neg h, ((fits_tdiv_toInt_iff hn).mpr h).int64?, Option.bind_some, hfits.int64?]

theorem evalArith_modulo (hn : n ≠ 0) :
    evalArith .modulo (.integer m) (.integer n) =
      if m = .minValue ∧ n = -1 then .error (.overflow "MOD")
      else .ok (.integer (.ofInt (m.toInt.tmod n.toInt))) := by
  have hdivisor : ¬ (ArithOp.modulo.divides && n == 0) = true := by
    simp only [ArithOp.divides, Bool.true_and, beq_iff_eq, hn, not_false_eq_true]
  by_cases h : m = .minValue ∧ n = -1
  · simp only [evalArith, if_neg hdivisor, ArithOp.onInt_modulo hn, if_pos h]
    rfl
  · simp only [evalArith, if_neg hdivisor, ArithOp.onInt_modulo hn, if_neg h]

theorem evalArith_divide {q : Int64}
    (h : evalArith .divide (.integer m) (.integer n) = .ok (.integer q)) :
    q.toInt = m.toInt.tdiv n.toInt := by
  have hop : ArithOp.divide ≠ .modulo := by decide
  have hgives := evalArith_gives hop m n
  rw [h] at hgives
  exact hgives.toInt_eq

/-! ## Overflows -/

theorem Except.bind_eq_error_iff {ε α β : Type} {x : Except ε α} {f : α → Except ε β} {err : ε} :
    (x >>= f) = .error err ↔ x = .error err ∨ ∃ a, x = .ok a ∧ f a = .error err := by
  constructor
  · intro h
    cases x with
    | error err' =>
      cases h
      exact .inl rfl
    | ok a => exact .inr ⟨a, rfl, h⟩
  · rintro (rfl | ⟨a, rfl, h⟩)
    · rfl
    · exact h

theorem ArithOp.onInt_eq_none {op : ArithOp} (hdivisor : ¬ (op.divides && n == 0) = true)
    (h : op.onInt m n = none) :
    ¬ Fits (op.exact m.toInt n.toInt) ∨ op = .modulo ∧ m = .minValue ∧ n = -1 := by
  by_cases hop : op = .modulo
  · subst hop
    have hn : n ≠ 0 := by simpa [divides] using hdivisor
    rw [onInt_modulo hn] at h
    split at h
    case isTrue hleast => exact .inr ⟨rfl, hleast⟩
    case isFalse => cases h
  · rw [onInt_eq hop] at h
    refine .inl fun hfits => ?_
    rw [hfits.int64?] at h
    cases h

theorem evalUnary_eq_overflow {op : UnaryOp} {v : Value} (h : evalUnary op v = .error (.overflow s)) :
    op = .negate ∧ s = op.symbol ∧ ∃ n, v = .integer n ∧ ¬ Fits (-n.toInt) := by
  cases op <;> cases v
  case negate.integer n =>
    have hgives := evalNegate_gives n
    rw [h] at hgives
    split at hgives
    case isTrue => cases hgives
    case isFalse hfits =>
      cases hgives
      exact ⟨rfl, rfl, n, rfl, hfits⟩
  all_goals cases h

theorem evalArith_eq_overflow {op : ArithOp} {v w : Value}
    (h : evalArith op v w = .error (.overflow s)) :
    s = (BinaryOp.arith op).symbol ∧ ∃ m n, v = .integer m ∧ w = .integer n ∧
      (¬ Fits (op.exact m.toInt n.toInt) ∨ op = .modulo ∧ m = .minValue ∧ n = -1) := by
  cases v <;> cases w
  case integer.integer m n =>
    simp only [evalArith] at h
    split at h
    case isTrue => cases h
    case isFalse hdivisor =>
      split at h
      case h_1 => cases h
      case h_2 hnone =>
        cases h
        exact ⟨rfl, m, n, rfl, rfl, ArithOp.onInt_eq_none hdivisor hnone⟩
  case integer.decimal | decimal.integer | decimal.decimal =>
    simp only [evalArith, Value.toFloat?] at h
    split at h <;> cases h
  all_goals cases h

theorem evalBinary_eq_overflow {op : BinaryOp} {v w : Value}
    (h : evalBinary op v w = .error (.overflow s)) :
    ∃ o, op = .arith o ∧ evalArith o v w = .error (.overflow s) := by
  cases op with
  | arith o => exact ⟨o, rfl, h⟩
  | compare o =>
    cases v <;> cases w
    case boolean.boolean =>
      simp only [evalBinary, evalCompare] at h
      split at h <;> cases h
    all_goals cases h
  | logic o =>
    cases v <;> cases w
    case boolean.boolean => cases o <;> cases h
    all_goals cases h

namespace Expr

/-- The outermost operator has integers as operands, and its exact result is no integer of 64 bits. -/
inductive Overflows (env : Environment) : Expr → String → Prop where
  | negate {e : Expr} {n : Int64} : e.eval env = .ok (.integer n) → ¬ Fits (-n.toInt) →
      Overflows env (.unary .negate e) UnaryOp.negate.symbol
  | arith {l r : Expr} {op : ArithOp} {m n : Int64} : l.eval env = .ok (.integer m) →
      r.eval env = .ok (.integer n) → ¬ Fits (op.exact m.toInt n.toInt) →
      Overflows env (.binary l (.arith op) r) (BinaryOp.arith op).symbol

def IsLeastRemainder (env : Environment) (e : Expr) : Prop :=
  ∃ l r, e = .binary l (.arith .modulo) r ∧ l.eval env = .ok (.integer .minValue) ∧
    r.eval env = .ok (.integer (-1))

theorem mem_nodes_self (e : Expr) : e ∈ e.nodes := by
  cases e <;> simp [nodes]

theorem exists_overflows (h : e.eval env = .error (.overflow s)) :
    ∃ d ∈ e.nodes, d.Overflows env s ∨ s = "MOD" ∧ d.IsLeastRemainder env := by
  induction e with
  | literal v => cases h
  | var x =>
    rw [eval, Environment.lookup] at h
    split at h <;> cases h
  | unary op e ih =>
    obtain he | ⟨v, he, hop⟩ := Except.bind_eq_error_iff.mp h
    · obtain ⟨d, hd, hover⟩ := ih he
      exact ⟨d, List.mem_append_left _ hd, hover⟩
    · obtain ⟨rfl, rfl, n, rfl, hfits⟩ := evalUnary_eq_overflow hop
      exact ⟨_, mem_nodes_self _, .inl (.negate he hfits)⟩
  | binary l op r ihl ihr =>
    obtain hl | ⟨v, hl, hright⟩ := Except.bind_eq_error_iff.mp h
    · obtain ⟨d, hd, hover⟩ := ihl hl
      exact ⟨d, List.mem_append_left _ hd, hover⟩
    · obtain hr | ⟨w, hr, hop⟩ := Except.bind_eq_error_iff.mp hright
      · obtain ⟨d, hd, hover⟩ := ihr hr
        exact ⟨d, List.mem_append_right _ (List.mem_append_left _ hd), hover⟩
      · obtain ⟨o, rfl, harith⟩ := evalBinary_eq_overflow hop
        obtain ⟨rfl, m, n, rfl, rfl, hfits | ⟨rfl, rfl, rfl⟩⟩ := evalArith_eq_overflow harith
        · exact ⟨_, mem_nodes_self _, .inl (.arith hl hr hfits)⟩
        · exact ⟨_, mem_nodes_self _, .inr ⟨rfl, l, r, rfl, hl, hr⟩⟩

theorem eval_binary_of_ok {op : BinaryOp} {v w : Value} (hl : l.eval env = .ok v)
    (hr : r.eval env = .ok w) : (binary l op r).eval env = evalBinary op v w := by
  rw [eval, hl, hr]
  rfl

/-- A remainder is exact and belongs to the quotient, but it is refused for the least integer and
`-1`; and no other operator overflows without need. -/
theorem eval_modulo (env : Environment) :
    (∀ (l r : Expr) (m n : Int64),
      l.eval env = .ok (.integer m) → r.eval env = .ok (.integer n) → n ≠ 0 →
      ∃ k : Int64, (∀ z, IsRemainder m.toInt n.toInt z ↔ z = k.toInt) ∧
        (binary l (.arith .modulo) r).eval env =
          (if m = .minValue ∧ n = -1 then .error (.overflow "MOD") else .ok (.integer k)) ∧
        ∀ q : Int64, (binary l (.arith .divide) r).eval env = .ok (.integer q) →
          m.toInt = q.toInt * n.toInt + k.toInt) ∧
    ∀ (e : Expr) (s : String), e.eval env = .error (.overflow s) →
      ∃ d ∈ e.nodes, d.Overflows env s ∨ s = "MOD" ∧ d.IsLeastRemainder env := by
  refine ⟨fun l r m n hl hr hn => ?_, fun e s => exists_overflows⟩
  have hzero : n.toInt ≠ 0 := mt toInt_eq_zero_iff.mp hn
  have hk : (Int64.ofInt (m.toInt.tmod n.toInt)).toInt = m.toInt.tmod n.toInt :=
    ((isRemainder_tmod m.toInt hzero).fits (fits_toInt n)).toInt_ofInt
  refine ⟨.ofInt (m.toInt.tmod n.toInt), fun z => ?_, ?_, fun q hq => ?_⟩
  · rw [hk]
    exact isRemainder_iff hzero
  · rw [eval_binary_of_ok hl hr]
    exact evalArith_modulo hn
  · rw [eval_binary_of_ok hl hr] at hq
    rw [evalArith_divide hq, hk, Int.tdiv_mul_add_tmod]

/-- `-7 MOD 2` is a remainder of its operands, and `x * 2` overflows if `x` is as large as can be. -/
theorem eval_modulo_negative :
    let dividend := literal (.integer (-7))
    let divisor := literal (.integer 2)
    let env := NameMap.empty.insert "x" (.integer Int64.maxValue)
    let product := binary (.var "x") (.arith .multiply) divisor
    (∃ k : Int64, IsRemainder (-7) 2 k.toInt ∧
      (binary dividend (.arith .modulo) divisor).eval env = .ok (.integer k) ∧
        -7 = (-3) * 2 + k.toInt) ∧
    product.eval env = .error (.overflow "*") ∧ ∃ d ∈ product.nodes, d.Overflows env "*" := by
  intro dividend divisor env product
  obtain ⟨k, hk, heval, hquotient⟩ :=
    (eval_modulo env).1 dividend divisor (-7) 2 rfl rfl (by decide)
  have hover : product.eval env = .error (.overflow "*") := by decide
  obtain ⟨d, hd, h | h⟩ := (eval_modulo env).2 product "*" hover
  · exact ⟨⟨k, (hk _).mpr rfl, heval, hquotient (-3) (by decide)⟩, hover, d, hd, h⟩
  · exact absurd h.1 (by decide)

/-- Of the least integer nothing is left over when multiples of `-1` are taken off, and still the
remainder is refused. -/
theorem eval_modulo_least :
    let least := binary (.unary .negate (.literal (.integer Int64.maxValue))) (.arith .subtract)
      (.literal (.integer 1))
    let minusOne := unary .negate (.literal (.integer 1))
    least.eval .empty = .ok (.integer .minValue) ∧ minusOne.eval .empty = .ok (.integer (-1)) ∧
      IsRemainder Int64.minValue.toInt (-1) 0 ∧ Fits 0 ∧
      (binary least (.arith .modulo) minusOne).eval .empty = .error (.overflow "MOD") := by
  refine ⟨by decide, by decide, ⟨?_, by decide, .inl rfl⟩, by decide, by decide⟩
  rw [Int.neg_dvd]
  exact one_dvd _

end Expr
end Pseudocode
