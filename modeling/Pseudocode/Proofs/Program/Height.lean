import Pseudocode.Proofs.Program.SameShape

/-! # How high expressions grow

The limit on nesting does not bound the height of an expression tree: operators of one precedence that group to
the left make the tree one level higher each, without any of them being open in another one. Such runs of
operators are all that is not bounded. With every run counted as one level a tree is no higher than the
limit and the levels of precedence allow.
-/

namespace Pseudocode

variable {n p : Nat} {ts : List Token} {source : String}

namespace Expr

/-- How many operators stand one inside the other. -/
def height : Expr → Nat
  | .literal _ | .var _ => 0
  | .unary _ e => e.height + 1
  | .binary l _ r => max l.height r.height + 1

/-- How many operators are in the run that the outermost operator ends. A run consists of binary operators
of one precedence, each the left operand of the next; a unary operator is a run of its own. -/
def run : Expr → Nat
  | .literal _ | .var _ => 0
  | .unary .. => 1
  | .binary l op _ => if l.level = op.precedence then l.run + 1 else 1

def longestRun : Expr → Nat
  | .literal _ | .var _ => 0
  | .unary op e => max (unary op e).run e.longestRun
  | .binary l op r => max (binary l op r).run (max l.longestRun r.longestRun)

/-- The height of the tree if each run counts as one level. -/
def runHeight : Expr → Nat
  | .literal _ | .var _ => 0
  | .unary _ e => e.runHeight + 1
  | .binary l op r =>
    max (if l.level = op.precedence then l.runHeight else l.runHeight + 1) (r.runHeight + 1)

end Expr

/-! ## What bounds the height -/

theorem Phrase.level_expr {d : Phrase} (h : d.level < 6) : d.expr.level = d.level := by
  cases d with
  | binary => rfl
  | _ => exact absurd h (Nat.lt_irrefl 6)

/-- Operators of one precedence that follow each other are in one run, and each of the five levels of
precedence adds one at most between two operands. -/
theorem Phrase.Grammatical.runHeight_le {d : Phrase} (h : d.Grammatical) :
    d.expr.runHeight + d.level ≤ 5 * d.nesting + 6 := by
  induction d with
  | atom t e =>
    obtain ⟨v, -, rfl⟩ | ⟨x, -, rfl⟩ := Expr.ofToken?_cases h <;> exact Nat.le_refl 6
  | unary t op d ih =>
    have hd := ih h.2.2
    rw [h.2.1] at hd
    simp only [expr, Expr.runHeight, nesting, level]
    omega
  | group o d c ih =>
    have hd := ih h.2.2
    have hlevel := d.one_le_level
    simp only [expr, nesting, level]
    omega
  | binary l t op r ihl ihr =>
    obtain ⟨-, hpl, hpr, hl, hr⟩ := h
    have hright := ihr hr
    have hop := op.precedence_le
    have hleft : (if l.expr.level = op.precedence then l.expr.runHeight else l.expr.runHeight + 1) +
        op.precedence ≤ 5 * l.nesting + 6 := by
      have hle := ihl hl
      rcases Nat.lt_or_eq_of_le hpl with hlt | heq
      · split <;> omega
      · rw [if_pos (by rw [Phrase.level_expr (by omega), heq])]
        omega
    simp only [expr, Expr.runHeight, nesting, level]
    omega

namespace Expr

variable {e : Expr} {k : Nat}

theorem run_le_longestRun (e : Expr) : e.run ≤ e.longestRun := by
  cases e with
  | literal v => exact Nat.le_refl 0
  | var x => exact Nat.le_refl 0
  | unary op e => exact Nat.le_max_left ..
  | binary l op r => exact Nat.le_max_left ..

theorem run_eq_zero (h : e.runHeight = 0) : e.run = 0 := by
  cases e with
  | literal v => rfl
  | var x => rfl
  | unary op e => cases h
  | binary l op r =>
    have hle : r.runHeight + 1 ≤ (binary l op r).runHeight := Nat.le_max_right ..
    omega

theorem height_le_mul_of_run (h : e.height ≤ (e.runHeight - 1) * k + e.run) (hk : e.longestRun ≤ k) :
    e.height ≤ e.runHeight * k := by
  have hrun := (run_le_longestRun e).trans hk
  cases hheight : e.runHeight with
  | zero =>
    rw [hheight, run_eq_zero hheight] at h
    exact h.trans (by simp)
  | succ n =>
    rw [hheight, Nat.add_sub_cancel] at h
    rw [Nat.succ_mul]
    omega

/-- A tree is higher than what is below its outermost run by the length of that run at most. -/
theorem height_le_of_run (hk : e.longestRun ≤ k) : e.height ≤ (e.runHeight - 1) * k + e.run := by
  induction e with
  | literal v => exact Nat.zero_le _
  | var x => exact Nat.zero_le _
  | unary op e ih =>
    have he : e.longestRun ≤ k := (Nat.le_max_right ..).trans hk
    exact Nat.succ_le_succ (height_le_mul_of_run (ih he) he)
  | binary l op r ihl ihr =>
    obtain ⟨-, hlr⟩ := Nat.max_le.mp hk
    obtain ⟨hl, hr⟩ := Nat.max_le.mp hlr
    have hrun : 1 ≤ (binary l op r).run := by
      rw [run]
      split <;> omega
    have hright : r.height + 1 ≤ ((binary l op r).runHeight - 1) * k + (binary l op r).run := by
      have hle : r.runHeight + 1 ≤ (binary l op r).runHeight := Nat.le_max_right ..
      have hmul := Nat.mul_le_mul_right k (Nat.le_sub_of_add_le hle)
      have := height_le_mul_of_run (ihr hr) hr
      omega
    have hleft : l.height + 1 ≤ ((binary l op r).runHeight - 1) * k + (binary l op r).run := by
      have hle : (if l.level = op.precedence then l.runHeight else l.runHeight + 1) ≤
        (binary l op r).runHeight := Nat.le_max_left ..
      rw [run]
      split at hle
      case isTrue hlevel =>
        have hmul := Nat.mul_le_mul_right k (Nat.sub_le_sub_right hle 1)
        have := ihl hl
        rw [if_pos hlevel]
        omega
      case isFalse hlevel =>
        have hmul := Nat.mul_le_mul_right k (Nat.le_sub_of_add_le hle)
        have := height_le_mul_of_run (ihl hl) hl
        rw [if_neg hlevel]
        omega
    rw [height]
    omega

theorem height_le_mul (e : Expr) : e.height ≤ e.runHeight * e.longestRun :=
  height_le_mul_of_run (height_le_of_run (Nat.le_refl _)) (Nat.le_refl _)

theorem Spelled.runHeight_le (h : e.Spelled ts) : e.runHeight ≤ 5 * (maxNesting + 1) := by
  obtain ⟨d, rfl, hg, hn, -⟩ := h
  have hheight := hg.runHeight_le
  have hlevel := d.one_le_level
  omega

end Expr

/-! ## Programs that were read -/

namespace Program

variable {p : Program}

/-- In a program that was read no expression is higher than the limit on nesting and the five levels of
precedence allow if each run of operators counts as one level, nor higher than that times the length
of its longest run. -/
theorem height_le_of_ofSource (h : Program.ofSource source = .ok p) : ∀ e ∈ p.expressions,
    e.runHeight ≤ 5 * (maxNesting + 1) ∧ e.height ≤ 5 * (maxNesting + 1) * e.longestRun := by
  obtain ⟨ts, -, hspelled⟩ := spelled_of_ofSource h
  have hall : ∀ e ∈ p.expressions, e.Spelled ts := forall_mem_expressions hspelled
  intro e he
  have hheight := (hall e he).runHeight_le
  exact ⟨hheight, e.height_le_mul.trans (Nat.mul_le_mul_right _ hheight)⟩

theorem height_le_of_ofSource_sum : ∃ p, Program.ofSource "MOSTRAR -(1 + 2 + x)" = .ok p ∧
    (∃ e ∈ p.expressions, e.height = 3 ∧ e.runHeight = 2 ∧ e.longestRun = 2) ∧
    ∀ e ∈ p.expressions,
      e.runHeight ≤ 5 * (maxNesting + 1) ∧ e.height ≤ 5 * (maxNesting + 1) * e.longestRun := by
  have hts : Token.ofSource "MOSTRAR -(1 + 2 + x)" =
      .ok (Token.scan "MOSTRAR -(1 + 2 + x)").1 := by
    decide +kernel
  have hcontent : Content.ofTokens (Token.scan "MOSTRAR -(1 + 2 + x)").1 =
      .ok ⟨[.display (.unary .negate (.binary (.binary (.literal (.integer 1)) (.arith .add)
        (.literal (.integer 2))) (.arith .add) (.var "x"))) 1], []⟩ := by
    cbv
  have hp : Program.ofSource "MOSTRAR -(1 + 2 + x)" = .ok ⟨_, [], [], rfl, rfl⟩ :=
    ofSource_eq_ok_iff.mpr ⟨_, _, hts, hcontent, rfl, rfl⟩
  exact ⟨_, hp, ⟨_, List.mem_cons_self, by decide⟩, height_le_of_ofSource hp⟩

end Program

/-! ## Runs of any length -/

namespace Expr

def ones : Nat → Expr
  | 0 => .literal (.integer 1)
  | n + 1 => .binary (ones n) (.arith .add) (.literal (.integer 1))

theorem height_ones (n : Nat) : (ones n).height = n := by
  induction n with
  | zero => rfl
  | succ n ih => simp [ones, height, ih]

theorem printable_ones (n : Nat) : (ones n).Printable := by
  have hone : (0 : Int) ≤ (1 : Int64).toInt := by decide
  induction n with
  | zero => exact hone
  | succ n ih => exact ⟨ih, hone⟩

theorem needsParens_ones (n : Nat) : (ones n).needsParens 4 false = false := by
  cases n <;> rfl

theorem nesting_ones (n : Nat) : (ones n).nesting = 0 := by
  induction n with
  | zero => rfl
  | succ n ih =>
    have hleft := needsParens_ones n
    simp only [ones, nesting, BinaryOp.precedence, ih, hleft]
    rfl

theorem unsigned_ones (n : Nat) : (ones n).Unsigned := by
  induction n with
  | zero => trivial
  | succ n ih => exact ⟨ih, trivial⟩

end Expr

namespace Program

theorem exists_display_of_same {e : Expr} {l : Nat} {js : List Instruction}
    (h : Instruction.sameSequence [.display e l] js) :
    ∃ j js' e', js = j :: js' ∧ j.argumentExpr = some e' ∧ e.same e' := by
  cases js with
  | nil => cases h
  | cons j js =>
    simp only [Instruction.sameSequence, Instruction.sameShape, Instruction.display,
      Bool.and_eq_true] at h
    obtain ⟨⟨⟨⟨⟨-, hexpr⟩, -⟩, -⟩, -⟩, -⟩ := h
    cases he : j.argumentExpr with
    | none =>
      rw [he] at hexpr
      cases hexpr
    | some e' =>
      rw [he] at hexpr
      exact ⟨j, js, e', rfl, he, hexpr⟩

/-- The limit on nesting does not bound how high the expressions of a program are. -/
theorem height_not_bounded : ¬ ∃ bound, ∀ source p, Program.ofSource source = .ok p →
    ∀ e ∈ p.expressions, e.height ≤ bound := by
  rintro ⟨bound, hbound⟩
  have hprintable : ∀ i ∈ [Instruction.display (Expr.ones (bound + 1)) 1],
      i.Printable maxNesting := by
    intro i hi
    obtain rfl := List.mem_singleton.mp hi
    exact .display 1 ⟨Expr.printable_ones _, (Expr.nesting_ones _).trans_le (Nat.zero_le _)⟩
  obtain ⟨p, hp, -, hall⟩ := exists_ofSource_renderSequence hprintable
  obtain ⟨i, is, e, his, hi, he⟩ := exists_display_of_same hall.same
  have hmem : e ∈ p.expressions := by
    rw [expressions, his]
    simp [Instruction.listing, Instruction.listingFrom, Instruction.expressions, hi]
  obtain ⟨ts, hts, hspelled⟩ := spelled_of_ofSource hp
  have hunsigned := (forall_mem_expressions hspelled e hmem).unsigned hts
  have hle := hbound _ p hp e hmem
  rw [← (Expr.unsigned_ones _).eq hunsigned he, Expr.height_ones] at hle
  exact Nat.not_succ_le_self bound hle

end Program
end Pseudocode
