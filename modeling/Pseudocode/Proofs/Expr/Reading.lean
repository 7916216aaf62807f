import Pseudocode.Proofs.Expr.Grammar
import Pseudocode.Proofs.Syntax.Reading

/-! # The reading of expressions and their grammar

An expression is read off the front of tokens just where a phrase for it stands. The reader finds the
phrase level by level: a chain reads an operand and lets it grow as long as it can.
-/

namespace Pseudocode.Expr

open Phrase

variable {n p : Nat} {ts rest : List Token} {e : Expr} {final : Span}

theorem operatorAt?_eq_some_iff {t : Token} {op : BinaryOp} :
    operatorAt? p t = some op ↔ BinaryOp.ofToken? t.kind = some op ∧ op.precedence = p := by
  simp [operatorAt?, Option.filter_eq_some_iff]

/-- A reading takes the phrases on level `p`. -/
def Takes (n p : Nat) (operand : Reading Expr) : Prop :=
  ∀ ts e rest, Reads (operand ts) e rest ↔ ∃ d, Front n p d ts rest ∧ d.expr = e

theorem chainFrom_reads {operand : Reading Expr} (hop : Takes n (p + 1) operand)
    (left : Parsed Expr ts) (a : Phrase) (ha : a.expr = left.value)
    (hs : Stops (p + 1) left.rest) :
    Reads (chainFrom p operand left) e rest ↔ ∃ d, Grows n p a left.rest d rest ∧ d.expr = e := by
  fun_induction chainFrom p operand left generalizing a with
  | case1 left h =>
    rw [reads_ok, h]
    constructor
    · rintro ⟨rfl, rfl⟩
      exact ⟨a, .stop stops_nil, ha⟩
    · rintro ⟨d, hgrows, rfl⟩
      cases hgrows
      exact ⟨ha.symm, rfl⟩
  | case2 left t ts' h hnone =>
    rw [reads_ok, h]
    have hstop : Stops p (t :: ts') := by
      rw [stops_cons]
      intro op hop'
      have hle := Nat.le_of_lt_succ (stops_cons.mp (h ▸ hs) op hop')
      refine Nat.lt_of_le_of_ne hle fun heq => ?_
      rw [operatorAt?_eq_some_iff.mpr ⟨hop', heq⟩] at hnone
      cases hnone
    constructor
    · rintro ⟨rfl, rfl⟩
      exact ⟨a, .stop hstop, ha⟩
    · rintro ⟨d, hgrows, rfl⟩
      cases hgrows with
      | stop => exact ⟨ha.symm, rfl⟩
      | more hop' hprec =>
        rw [operatorAt?_eq_some_iff.mpr ⟨hop', hprec⟩] at hnone
        cases hnone
  | case3 left t ts' h op hsome ih =>
    obtain ⟨hop', hprec⟩ := operatorAt?_eq_some_iff.mp hsome
    rw [reads_bind, h]
    constructor
    · rintro ⟨right, hright, hreads⟩
      obtain ⟨b, hb, hbe⟩ := (hop _ _ _).mp (reads_of_eq hright)
      obtain ⟨d, hgrows, rfl⟩ := (ih right (.binary a t op b)
        (by rw [expr, ha, hbe]; rfl) hb.stops).mp hreads
      exact ⟨d, .more hop' hprec hb hgrows, rfl⟩
    · rintro ⟨d, hgrows, rfl⟩
      cases hgrows with
      | stop hstop => exact absurd hprec (Nat.ne_of_lt (stops_cons.mp hstop op hop'))
      | @more _ b _ _ op' _ us _ hop'' _ hb hgrows =>
        obtain rfl := Option.some.inj (hop'.symm.trans hop'')
        obtain ⟨hlt, hright⟩ := (hop _ _ _).mpr ⟨b, hb, rfl⟩
        exact ⟨_, hright, (ih ⟨b.expr, us, hlt⟩ (.binary a t op b)
          (by rw [expr, ha]; rfl) hb.stops).mpr ⟨d, hgrows, rfl⟩⟩

theorem Takes.chain {operand : Reading Expr} (hp5 : p ≤ 5) (hop : Takes n (p + 1) operand) :
    Takes n p (chain p operand) := by
  intro ts e rest
  rw [Expr.chain, reads_bind]
  constructor
  · rintro ⟨left, hleft, hreads⟩
    obtain ⟨a, ha, hae⟩ := (hop _ _ _).mp (reads_of_eq hleft)
    obtain ⟨d, hgrows, hde⟩ := (chainFrom_reads hop left a hae ha.stops).mp hreads
    exact ⟨d, (front_iff_grows hp5).mpr ⟨a, left.rest, ha, hgrows⟩, hde⟩
  · rintro ⟨d, hd, hde⟩
    obtain ⟨a, us, ha, hgrows⟩ := (front_iff_grows hp5).mp hd
    obtain ⟨hlt, hleft⟩ := (hop _ _ _).mpr ⟨a, ha, rfl⟩
    exact ⟨_, hleft, (chainFrom_reads hop ⟨a.expr, us, hlt⟩ a rfl ha.stops).mpr ⟨d, hgrows, hde⟩⟩

theorem Takes.levels {operand : Reading Expr} (hop : Takes n 6 operand) :
    Takes n 1 (levels operand) :=
  ((((hop.chain (by decide)).chain (by decide)).chain (by decide)).chain (by decide)).chain
    (by decide)

theorem takes_readOperand_of (ih : ∀ m, n = m + 1 → Takes m 6 (readOperand final m)) :
    Takes n 6 (readOperand final n) := by
  intro ts e rest
  cases ts with
  | nil => simp [readOperand, front_six_nil]
  | cons t ts =>
    rw [readOperand.eq_def]
    cases hop : UnaryOp.ofToken? t.kind with
    | some op =>
      simp only [hop, front_six_unary hop]
      cases n with
      | zero => simp
      | succ m =>
        rw [reads_bind]
        constructor
        · rintro ⟨q, hq, hreads⟩
          obtain ⟨rfl, rfl⟩ := reads_ok.mp hreads
          obtain ⟨d, hd, hde⟩ := (ih m rfl _ _ _).mp (reads_of_eq hq)
          exact ⟨_, ⟨m, d, rfl, rfl, hd⟩, congrArg (Expr.unary op) hde⟩
        · rintro ⟨_, ⟨_, d, ⟨⟩, rfl, hd⟩, rfl⟩
          obtain ⟨hlt, hq⟩ := (ih m rfl _ _ _).mpr ⟨d, hd, rfl⟩
          exact ⟨_, hq, reads_ok.mpr ⟨rfl, rfl⟩⟩
    | none =>
      simp only [hop]
      split
      case isTrue hp =>
        simp only [front_six_group hp]
        cases n with
        | zero => simp
        | succ m =>
          have hinner := (ih m rfl).levels
          rw [reads_bind]
          constructor
          · rintro ⟨q, hq, hreads⟩
            obtain ⟨close, hclose, hreads⟩ := reads_bind.mp hreads
            obtain ⟨rfl, rfl⟩ := reads_ok.mp hreads
            obtain ⟨d, hd, hde⟩ := (hinner _ _ _).mp (reads_of_eq hq)
            obtain ⟨c, hc, hrest⟩ := reads_expect.mp (reads_of_eq hclose)
            exact ⟨_, ⟨m, d, c, rfl, rfl, hc, hrest ▸ hd⟩, hde⟩
          · rintro ⟨_, ⟨_, d, c, ⟨⟩, rfl, hc, hd⟩, rfl⟩
            obtain ⟨hlt, hq⟩ := (hinner _ _ _).mpr ⟨d, hd, rfl⟩
            obtain ⟨hlt', hclose⟩ : Reads (expect final (.symbol .rightParen) .closingParen
              (c :: rest)) () rest := reads_expect.mpr ⟨c, hc, rfl⟩
            exact ⟨_, hq, reads_bind.mpr ⟨_, hclose, reads_ok.mpr ⟨rfl, rfl⟩⟩⟩
      case isFalse hp =>
        simp only [front_six_atom hop hp]
        cases ha : ofToken? t.kind with
        | none => simp
        | some a =>
          rw [reads_ok]
          constructor
          · rintro ⟨rfl, rfl⟩
            exact ⟨_, ⟨a, rfl, rfl, rfl⟩, rfl⟩
          · rintro ⟨_, ⟨_, ⟨⟩, rfl, rfl⟩, rfl⟩
            exact ⟨rfl, rfl⟩

theorem takes_readOperand (final : Span) (n : Nat) : Takes n 6 (readOperand final n) := by
  induction n with
  | zero => exact takes_readOperand_of fun m hm => by cases hm
  | succ n ih =>
    refine takes_readOperand_of fun m hm => ?_
    cases hm
    exact ih

/-- An expression is read just where a phrase for it stands in front of the tokens. -/
theorem read_iff_front : Reads (read final ts) e rest ↔
    ∃ d, Front maxNesting 1 d ts rest ∧ d.expr = e :=
  (takes_readOperand final maxNesting).levels ts e rest

end Pseudocode.Expr
