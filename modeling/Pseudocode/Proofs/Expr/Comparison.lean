import Pseudocode.Expr.Evaluation
import Pseudocode.Proofs.Decimal.Order

/-! # Comparisons

Two values are ordered, or they are truth values, or they do not compare. If they are ordered, the six
operators all tell the outcome of one comparison, which with the operands exchanged is the reverse.
-/

namespace Pseudocode

def Value.isNaN : Value → Bool
  | .decimal d => d.isNaN
  | _ => false

namespace CompareOp

def Refuses (op : CompareOp) (a b : Value) : Prop :=
  evalCompare op a b = .error (.typeMismatch (BinaryOp.compare op).symbol a.type (some b.type))

def Tells (op : CompareOp) (a b : Value) (p : Bool) : Prop :=
  evalCompare op a b = .ok (.boolean p)

/-- The operator that stands for the same comparison when the operands are exchanged. -/
def converse : CompareOp → CompareOp
  | .equal => .equal
  | .notEqual => .notEqual
  | .less => .greater
  | .lessEqual => .greaterEqual
  | .greater => .less
  | .greaterEqual => .lessEqual

end CompareOp

open CompareOp

/-- How the six comparisons of two values depend on each other. -/
structure Coherent (a b : Value) : Prop where
  /-- A comparison is refused, or it comes to a truth value. -/
  answered (op : CompareOp) : op.Refuses a b ∨ ∃ p, op.Tells a b p
  /-- `=` and `<>` are refused together. -/
  refuses_notEqual : notEqual.Refuses a b ↔ equal.Refuses a b
  /-- `<>` is the negation of `=`. -/
  tells_notEqual (p : Bool) : notEqual.Tells a b p ↔ equal.Tells a b (!p)
  /-- The other four are refused together: where `=` is, and on truth values. -/
  refuses_order (op : CompareOp) (h : op ∈ [less, lessEqual, greater, greaterEqual]) :
    op.Refuses a b ↔ equal.Refuses a b ∨ a.type = .boolean ∧ b.type = .boolean
  /-- Exchanging the operands does not change whether the comparison is refused. -/
  refuses_swap (op : CompareOp) : op.Refuses a b ↔ op.Refuses b a
  /-- `a < b` is `b > a`, and `a <= b` is `b >= a`. -/
  tells_converse (op : CompareOp) (p : Bool) : op.Tells a b p ↔ op.converse.Tells b a p
  /-- `a <= b` says that `a < b` or `a = b`. -/
  lessEqual_iff (h : ¬ less.Refuses a b) :
    lessEqual.Tells a b true ↔ less.Tells a b true ∨ equal.Tells a b true
  /-- Exactly one of `a < b`, `a = b` and `a > b` is true. -/
  trichotomy (h : ¬ less.Refuses a b) (ha : a.isNaN = false) (hb : b.isNaN = false) :
    ∃! op, op ∈ [less, equal, greater] ∧ op.Tells a b true
  /-- With NaN none of the three is true, and `a <> b` is. -/
  nan (h : ¬ less.Refuses a b) (hnan : a.isNaN ∨ b.isNaN) :
    (∀ op ∈ [less, equal, greater], op.Tells a b false) ∧ notEqual.Tells a b true

variable {a b : Value} {op : CompareOp} {p q : Bool} {o : Option Ordering}

/-! ## The outcome of a comparison -/

theorem compareFloats_eq (x y : Float) :
    compareFloats x y = x.toModel.unpack.compare y.toModel.unpack := by
  have hgt : y < x ↔ x.toModel.unpack.compare y.toModel.unpack = some .gt := by
    rw [Decimal.lt_iff, Decimal.compare_swap]
    cases x.toModel.unpack.compare y.toModel.unpack with
    | none => simp
    | some o => cases o <;> simp
  simp only [compareFloats, Decimal.lt_iff (y := y), Decimal.beq_iff, hgt]
  cases x.toModel.unpack.compare y.toModel.unpack with
  | none => rfl
  | some o => cases o <;> rfl

theorem compareFloats_eq_none_iff {x y : Float} : compareFloats x y = none ↔ x.isNaN ∨ y.isNaN := by
  rw [compareFloats_eq, Decimal.compare_eq_none_iff, Decimal.isNaN_iff, Decimal.isNaN_iff]

theorem compareFloats_swap (x y : Float) :
    compareFloats y x = (compareFloats x y).map Ordering.swap := by
  rw [compareFloats_eq, compareFloats_eq, Decimal.compare_swap]

inductive Compares (a b : Value) : Prop where
  /-- Numbers or texts have an order, unless there is a NaN among them. -/
  | ordered (o : Option Ordering) : (∀ op : CompareOp, op.Tells a b (op.holds o)) →
      (∀ op : CompareOp, op.Tells b a (op.holds (o.map Ordering.swap))) →
      (o = none ↔ a.isNaN ∨ b.isNaN) → a.type ≠ .boolean → Compares a b
  /-- Truth values are equal or not. -/
  | truth (p q : Bool) : a = .boolean p → b = .boolean q → Compares a b
  /-- Values of other types do not compare. -/
  | apart : (∀ op : CompareOp, op.Refuses a b) → (∀ op : CompareOp, op.Refuses b a) → Compares a b

theorem compares_of_ordering {o o' : Ordering}
    (hab : ∀ op : CompareOp, op.Tells a b (op.holds (some o)))
    (hba : ∀ op : CompareOp, op.Tells b a (op.holds (some o'))) (ho : o' = o.swap)
    (ha : a.isNaN = false) (hb : b.isNaN = false) (htype : a.type ≠ .boolean) : Compares a b := by
  subst ho
  exact .ordered (some o) hab hba (by simp [ha, hb]) htype

theorem compares_of_floats {x y : Float}
    (hab : ∀ op : CompareOp, op.Tells a b (op.holds (compareFloats x y)))
    (hba : ∀ op : CompareOp, op.Tells b a (op.holds (compareFloats y x))) (hx : x.isNaN = a.isNaN)
    (hy : y.isNaN = b.isNaN) (htype : a.type ≠ .boolean) : Compares a b := by
  rw [compareFloats_swap x y] at hba
  exact .ordered _ hab hba (by rw [compareFloats_eq_none_iff, hx, hy]) htype

theorem compares (a b : Value) : Compares a b := by
  -- an integer beside a decimal compares as the nearest double, and that is never NaN
  cases a <;> cases b
  case integer.integer m n =>
    exact compares_of_ordering (fun _ => rfl) (fun _ => rfl) (Int.compare_swap _ _).symm rfl rfl nofun
  case text.text s t =>
    exact compares_of_ordering (fun _ => rfl) (fun _ => rfl) Std.OrientedOrd.eq_swap rfl rfl nofun
  case boolean.boolean p q => exact .truth p q rfl rfl
  case integer.decimal n d =>
    exact compares_of_floats (fun _ => rfl) (fun _ => rfl) (Decimal.isNaN_ofInt _) rfl nofun
  case decimal.integer d n =>
    exact compares_of_floats (fun _ => rfl) (fun _ => rfl) rfl (Decimal.isNaN_ofInt _) nofun
  case decimal.decimal c d =>
    exact compares_of_floats (fun _ => rfl) (fun _ => rfl) rfl rfl nofun
  all_goals exact .apart (fun _ => rfl) (fun _ => rfl)

/-! ## The six operators -/

namespace CompareOp

theorem holds_converse (op : CompareOp) (o : Option Ordering) :
    op.converse.holds (o.map Ordering.swap) = op.holds o := by
  cases op <;> rcases o with _ | _ | _ | _ <;> rfl

theorem holds_notEqual (o : Option Ordering) : notEqual.holds o = !equal.holds o := by
  rcases o with _ | _ | _ | _ <;> rfl

theorem holds_lessEqual (o : Option Ordering) :
    lessEqual.holds o = (less.holds o || equal.holds o) := by
  rcases o with _ | _ | _ | _ <;> rfl

theorem existsUnique_holds (o : Ordering) :
    ∃! op, op ∈ [less, equal, greater] ∧ op.holds (some o) = true := by
  cases o with
  | lt => exact ⟨less, by decide, fun op h => by cases op <;> simp_all [holds]⟩
  | eq => exact ⟨equal, by decide, fun op h => by cases op <;> simp_all [holds]⟩
  | gt => exact ⟨greater, by decide, fun op h => by cases op <;> simp_all [holds]⟩

theorem Tells.not_refuses (h : op.Tells a b p) : ¬ op.Refuses a b := by
  intro hrefuses
  cases h.symm.trans hrefuses

theorem Tells.tells_iff (h : op.Tells a b p) : op.Tells a b q ↔ p = q := by
  rw [Tells, h]
  simp

theorem Refuses.not_tells (h : op.Refuses a b) : ¬ op.Tells a b p := by
  intro htells
  exact htells.not_refuses h

theorem tells_boolean (h : op.comparesBooleans) (p q : Bool) :
    op.Tells (.boolean p) (.boolean q) (op.holds (some (compare p q))) :=
  if_pos h

theorem refuses_boolean (h : ¬ op.comparesBooleans) (p q : Bool) :
    op.Refuses (.boolean p) (.boolean q) :=
  if_neg h

theorem comparesBooleans_converse (op : CompareOp) :
    op.converse.comparesBooleans = op.comparesBooleans := by
  cases op <;> rfl

end CompareOp

/-! ## Coherence -/

theorem coherent_of_ordered (hab : ∀ op : CompareOp, op.Tells a b (op.holds o))
    (hba : ∀ op : CompareOp, op.Tells b a (op.holds (o.map Ordering.swap)))
    (hnan : o = none ↔ a.isNaN ∨ b.isNaN) (htype : a.type ≠ .boolean) : Coherent a b where
  answered op := .inr ⟨_, hab op⟩
  refuses_notEqual := iff_of_false (hab _).not_refuses (hab _).not_refuses
  tells_notEqual p := by
    rw [(hab _).tells_iff, (hab _).tells_iff, holds_notEqual, Bool.not_eq_eq_eq_not]
  refuses_order op _ :=
    iff_of_false (hab op).not_refuses (not_or_intro (hab _).not_refuses fun h => htype h.1)
  refuses_swap op := iff_of_false (hab op).not_refuses (hba op).not_refuses
  tells_converse op p := by rw [(hab op).tells_iff, (hba _).tells_iff, holds_converse]
  lessEqual_iff _ := by
    rw [(hab _).tells_iff, (hab _).tells_iff, (hab _).tells_iff, holds_lessEqual, Bool.or_eq_true]
  trichotomy _ ha hb := by
    obtain ⟨o', rfl⟩ : ∃ o', o = some o' := by
      rw [← Option.ne_none_iff_exists', Ne, hnan, ha, hb]
      simp
    simp only [(hab _).tells_iff]
    exact existsUnique_holds o'
  nan _ h := by
    obtain rfl := hnan.mpr h
    refine ⟨fun op hop => (hab op).tells_iff.mpr ?_, hab _⟩
    cases op <;> first | rfl | simp at hop

theorem coherent_of_boolean (p q : Bool) : Coherent (.boolean p) (.boolean q) where
  answered op := by
    by_cases h : op.comparesBooleans
    · exact .inr ⟨_, tells_boolean h p q⟩
    · exact .inl (refuses_boolean h p q)
  refuses_notEqual :=
    iff_of_false (tells_boolean rfl p q).not_refuses (tells_boolean rfl p q).not_refuses
  tells_notEqual r := by
    rw [(tells_boolean rfl p q).tells_iff, (tells_boolean rfl p q).tells_iff, holds_notEqual,
      Bool.not_eq_eq_eq_not]
  refuses_order op h := by
    refine iff_of_true (refuses_boolean ?_ p q) (.inr ⟨rfl, rfl⟩)
    cases op <;> first | exact Bool.false_ne_true | simp at h
  refuses_swap op := by
    by_cases h : op.comparesBooleans
    · exact iff_of_false (tells_boolean h p q).not_refuses (tells_boolean h q p).not_refuses
    · exact iff_of_true (refuses_boolean h p q) (refuses_boolean h q p)
  tells_converse op r := by
    by_cases h : op.comparesBooleans
    · have hswap : some (compare q p) = (some (compare p q)).map Ordering.swap :=
        congrArg some Std.OrientedOrd.eq_swap
      have hconverse : op.converse.comparesBooleans := by rwa [comparesBooleans_converse]
      rw [(tells_boolean h p q).tells_iff, (tells_boolean hconverse q p).tells_iff, hswap,
        holds_converse]
    · have hconverse : ¬ op.converse.comparesBooleans := by rwa [comparesBooleans_converse]
      exact iff_of_false (refuses_boolean h p q).not_tells (refuses_boolean hconverse q p).not_tells
  lessEqual_iff h := absurd rfl h
  trichotomy h := absurd rfl h
  nan h := absurd rfl h

theorem coherent_of_apart (hab : ∀ op : CompareOp, op.Refuses a b)
    (hba : ∀ op : CompareOp, op.Refuses b a) : Coherent a b where
  answered op := .inl (hab op)
  refuses_notEqual := iff_of_true (hab _) (hab _)
  tells_notEqual _ := iff_of_false (hab _).not_tells (hab _).not_tells
  refuses_order op _ := iff_of_true (hab op) (.inl (hab _))
  refuses_swap op := iff_of_true (hab op) (hba op)
  tells_converse op _ := iff_of_false (hab op).not_tells (hba _).not_tells
  lessEqual_iff h := absurd (hab _) h
  trichotomy h := absurd (hab _) h
  nan h := absurd (hab _) h

/-- The six comparisons of any two values are coherent. -/
theorem comparisons_coherent (a b : Value) : Coherent a b := by
  cases compares a b with
  | ordered o hab hba hnan htype => exact coherent_of_ordered hab hba hnan htype
  | truth p q ha hb =>
    subst ha hb
    exact coherent_of_boolean p q
  | apart hab hba => exact coherent_of_apart hab hba

end Pseudocode
