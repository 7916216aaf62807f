import Pseudocode.Proofs.Decimal.Negation
import Pseudocode.Proofs.Decimal.Range

/-! # The order of doubles

Two doubles can be compared unless one of them is NaN, and with the doubles the outcome is reversed.
The double of an integer is never NaN.
-/

namespace Pseudocode.Decimal

open Float.Model Float.Model.UnpackedFloat

variable {x y : Float} {q : Rat}

/-! ## Comparison -/

theorem compare_eq_none_iff {u v : UnpackedFloat} :
    u.compare v = none ↔ u = .notANumber ∨ v = .notANumber := by
  cases u with
  | notANumber => simp [UnpackedFloat.compare]
  | infinity s => cases s <;> cases v <;> simp [UnpackedFloat.compare]
  | zero s =>
    cases v with
    | infinity s' => cases s' <;> simp [UnpackedFloat.compare]
    | finite s' m e hm => cases s' <;> simp [UnpackedFloat.compare]
    | _ => simp [UnpackedFloat.compare]
  | finite s m e hm =>
    cases v with
    | infinity s' => cases s' <;> simp [UnpackedFloat.compare]
    | finite s' m' e' hm' => cases s <;> cases s' <;> simp [UnpackedFloat.compare]
    | _ => cases s <;> simp [UnpackedFloat.compare]

theorem compare_then_swap (m m' : Nat) (e e' : Int) :
    (compare e' e).then (compare m' m) = ((compare e e').then (compare m m')).swap := by
  rw [Ordering.swap_then, Int.compare_swap, Nat.compare_swap]

theorem compare_swap (u v : UnpackedFloat) : v.compare u = (u.compare v).map Ordering.swap := by
  cases u with
  | notANumber => cases v <;> rfl
  | infinity s =>
    cases v with
    | infinity s' => cases s <;> cases s' <;> rfl
    | finite s' m e hm => cases s <;> cases s' <;> rfl
    | _ => cases s <;> rfl
  | zero s =>
    cases v with
    | infinity s' => cases s' <;> rfl
    | finite s' m e hm => cases s' <;> rfl
    | _ => rfl
  | finite s m e hm =>
    cases v with
    | infinity s' => cases s <;> cases s' <;> rfl
    | finite s' m' e' hm' =>
      cases s <;> cases s' <;> simp only [UnpackedFloat.compare, Option.map_some, Ordering.swap,
        compare_then_swap m m' e e']
    | _ => cases s <;> rfl

theorem lt_iff : x < y ↔ x.toModel.unpack.compare y.toModel.unpack = some .lt := by
  change decide (x.toModel.lt y.toModel = true) = true ↔ _
  rw [decide_eq_true_iff]
  exact beq_iff_eq

theorem isNaN_iff : x.isNaN ↔ x.toModel.unpack = .notANumber := by
  change x.toModel.unpack.isNaN = true ↔ _
  cases x.toModel.unpack <;> simp [UnpackedFloat.isNaN]

/-! ## Integers -/

theorem Ranged.unpack_ne (h : Ranged q x) : x.toModel.unpack ≠ .notANumber := by
  intro hx
  have hnan : denote x = .nan := by rw [denote, hx]
  rcases lt_or_ge q overflow with hq | hq
  · have hfinite := h.finite hq
    rw [isFinite, hnan] at hfinite
    cases hfinite
  · have hinfinite := h.infinite hq
    rw [hnan] at hinfinite
    cases hinfinite

theorem nearest_neg (q : Rat) : nearest (-q) = nearest q := by
  simp only [nearest, Rat.neg_num, Rat.neg_den, Int.natAbs_neg]

theorem unpack_nearest_ne (q : Rat) : (nearest q).toModel.unpack ≠ .notANumber := by
  rcases le_total 0 q with hq | hq
  · exact (ranged_nearest hq).unpack_ne
  · rw [← nearest_neg]
    exact (ranged_nearest (neg_nonneg.mpr hq)).unpack_ne

theorem unpack_signed_ne (negative : Bool) (h : x.toModel.unpack ≠ .notANumber) :
    (signed negative x).toModel.unpack ≠ .notANumber := by
  unfold signed
  split
  case isTrue =>
    rw [unpack_neg]
    cases hx : x.toModel.unpack with
    | notANumber => exact absurd hx h
    | _ => nofun
  case isFalse => exact h

theorem isNaN_ofInt (n : Int) : (ofInt n).isNaN = false :=
  Bool.eq_false_iff.mpr (mt isNaN_iff.mp (unpack_signed_ne _ (unpack_nearest_ne n)))

end Pseudocode.Decimal
