import Pseudocode.Proofs.Decimal.Canonical

/-! # The nearest double of a double

A rational that a double denotes is divided and rounded without loss, so that its nearest double is
the double itself.
-/

namespace Pseudocode.Decimal

open Float.Model Float.Model.UnpackedFloat

variable {m : Nat} {e : Int}

theorem targetExponent_eq (t : Int) : Format.binary64.targetExponent t = max (t - 53) (-1074) :=
  rfl

theorem log2_mul_two_pow (hm : 0 < m) (k : Nat) : (m * 2 ^ k).log2 = m.log2 + k := by
  rw [Nat.log2_eq_iff (by positivity), pow_add, pow_succ, pow_add]
  have hle : 2 ^ m.log2 ≤ m := Nat.log2_self_le hm.ne'
  have hlt : m < 2 ^ m.log2 * 2 := Nat.lt_log2_self
  refine ⟨Nat.mul_le_mul_right _ hle, ?_⟩
  calc m * 2 ^ k < 2 ^ m.log2 * 2 * 2 ^ k := Nat.mul_lt_mul_of_pos_right hlt (by positivity)
    _ = 2 ^ m.log2 * 2 ^ k * 2 := by ring

theorem log2_mul_le {a b : Nat} (ha : 0 < a) (hb : 0 < b) : (a * b).log2 ≤ a.log2 + b.log2 + 1 := by
  have h : (a * b).log2 < a.log2 + b.log2 + 2 := by
    rw [Nat.log2_lt (by positivity)]
    calc a * b < 2 ^ (a.log2 + 1) * 2 ^ (b.log2 + 1) :=
          Nat.mul_lt_mul'' Nat.lt_log2_self Nat.lt_log2_self
      _ = 2 ^ (a.log2 + b.log2 + 2) := by ring
  omega

theorem shiftRight_two_pow (m k : Nat) :
    ExtendedMantissa.mk (m * 2 ^ k) false false >>> k = ExtendedMantissa.mk m false false := by
  induction k generalizing m with
  | zero => simp [HShiftRight.hShiftRight, Nat.repeat]
  | succ k ih =>
    have hk : m * 2 ^ (k + 1) = m * 2 * 2 ^ k := by ring
    have hshift (em : ExtendedMantissa) : em >>> (k + 1) = (em >>> k).shiftRightOne := rfl
    rw [hshift, hk, ih]
    simp [ExtendedMantissa.shiftRightOne]

/-- A canonical exponent is the one that rounding aims at, however far the mantissa is shifted. -/
theorem Canonical.targetExponent (h : Canonical m e) (k : Nat) :
    Format.binary64.targetExponent (totalExponent (m * 2 ^ k) (e - k)) = e := by
  rw [targetExponent_eq, totalExponent, log2_mul_two_pow h.pos]
  have hleast := h.least
  by_cases hfull : m < 2 ^ 52
  · have hlog : m.log2 < 52 := (Nat.log2_lt h.pos.ne').2 hfull
    have := h.full hfull
    omega
  · have hlog := h.log2 (by omega)
    omega

theorem Canonical.shiftToTargetExponent (h : Canonical m e) (k : Nat) :
    shiftToTargetExponent .binary64 (m * 2 ^ k) (e - k) .exact = (⟨m, false, false⟩, e) := by
  have hk : (e - (e - k)).toNat = k := by omega
  simp only [UnpackedFloat.shiftToTargetExponent, shiftToExponent, h.targetExponent, hk,
    ExtendedMantissa.ofMantissaAndAccuracy, shiftRight_two_pow]
  congr 1
  omega

/-- Rounding drops the bits that only shift a canonical mantissa. -/
theorem Canonical.roundWithAccuracy (h : Canonical m e) (k : Nat) :
    roundWithAccuracy .binary64 .positive (m * 2 ^ k) (e - k) .exact =
      .finite .positive m e h.pos := by
  have hsecond := h.shiftToTargetExponent 0
  rw [pow_zero, mul_one, Nat.cast_zero, sub_zero] at hsecond
  have hrounded : (⟨m, false, false⟩ : ExtendedMantissa).roundedMantissa = m := rfl
  simp only [UnpackedFloat.roundWithAccuracy, h.shiftToTargetExponent, hrounded, hsecond,
    h.pos.ne', dite_false]

/-- The division that finds the nearest double of a canonical one leaves nothing over. -/
theorem Canonical.div {a d : Nat} {k l : Nat} (h : Canonical m e) (ha : 0 < a) (hd : 0 < d)
    (heq : a * 2 ^ k = m * 2 ^ l * d) (hkl : e = l - k) :
    UnpackedFloat.div .binary64 (.finite .positive a 0 ha) (.finite .positive d 0 hd) =
      .finite .positive m e h.pos := by
  have hlog : a.log2 + k ≤ m.log2 + l + d.log2 + 1 := by
    rw [← log2_mul_two_pow ha, heq, ← log2_mul_two_pow h.pos]
    exact log2_mul_le (by have := h.pos; positivity) hd
  have hm : m.log2 ≤ 52 := Nat.le_of_lt_succ ((Nat.log2_lt h.pos.ne').2 h.lt)
  have hleast := h.least
  generalize ht : min 0 (Format.binary64.targetExponent (totalExponent a 0 - totalExponent d 0)) = t
  have hte : t ≤ 0 ∧ t ≤ e := by
    rw [targetExponent_eq, totalExponent, totalExponent] at ht
    omega
  obtain ⟨shift, hshift⟩ := Int.eq_ofNat_of_zero_le (show 0 ≤ 0 - 0 - t by omega)
  obtain ⟨r, hr⟩ := Int.eq_ofNat_of_zero_le (show 0 ≤ e - t by omega)
  have hnum : a * 2 ^ shift = m * 2 ^ r * d := by
    have hrk : r + k = l + shift := by omega
    refine Nat.eq_of_mul_eq_mul_right (Nat.two_pow_pos k) ?_
    calc a * 2 ^ shift * 2 ^ k = a * 2 ^ k * 2 ^ shift := by ring
      _ = m * 2 ^ (l + shift) * d := by rw [heq]; ring
      _ = m * 2 ^ r * d * 2 ^ k := by rw [← hrk]; ring
  have hcore : divCore .binary64 a 0 d 0 = (m * 2 ^ r, e - r, .exact) := by
    simp only [divCore, sub_self, ht]
    rw [show (0 - t).toNat = shift by omega, Nat.shiftLeft_eq, hnum, Nat.mul_div_cancel _ hd,
      Nat.mul_mod_left, show e - r = t by omega]
    rfl
  rw [UnpackedFloat.div, hcore]
  exact h.roundWithAccuracy r

theorem nearest_zero : nearest 0 = 0 :=
  dif_neg (by decide)

theorem Canonical.nearest (h : Canonical m e) :
    nearest (m * 2 ^ e) = .ofModel (.pack (.finite .positive m e h.pos)) := by
  generalize hq : (m * 2 ^ e : Rat) = q
  have hpos : 0 < q := by
    have hm : (0 : Rat) < m := Nat.cast_pos.2 h.pos
    rw [← hq]
    exact mul_pos hm (zpow_pos two_pos e)
  have hnum : 0 < q.num.natAbs := Int.natAbs_pos.2 (Rat.num_pos.2 hpos).ne'
  obtain ⟨l, k, hkl⟩ : ∃ l k : Nat, e = l - k := ⟨e.toNat, (-e).toNat, by omega⟩
  have heq : q.num.natAbs * 2 ^ k = m * 2 ^ l * q.den := by
    have hcast : ((q.num.natAbs : Int) : Rat) = q.num := by
      rw [Int.natAbs_of_nonneg (Rat.num_pos.2 hpos).le]
    have hden := Rat.mul_den_eq_num q
    have hpow : (2 : Rat) ^ l = 2 ^ e * 2 ^ k := by
      rw [← zpow_natCast, ← zpow_natCast, ← zpow_add₀ two_ne_zero]
      congr 1
      omega
    rw [← Nat.cast_inj (R := Rat)]
    push_cast
    rw [← Int.cast_natCast, hcast, ← hden, hpow, ← hq]
    ring
  rw [Decimal.nearest, dif_pos hnum, h.div hnum q.den_pos heq hkl]

theorem nearest_of_denote {x : Float} {q : Rat} (h : denote x = .finite false q) :
    nearest q = x := by
  rw [denote] at h
  split at h
  case h_1 => cases h
  case h_2 => cases h
  case h_3 s hx =>
    cases s with
    | negative => cases h
    | positive =>
      cases h
      exact nearest_zero.trans (eq_of_unpack_eq hx.symm)
  case h_4 s m e hm hx =>
    cases s with
    | negative => cases h
    | positive =>
      cases h
      rw [(canonical_of_unpack hx).nearest, ← hx, ofModel_pack_unpack]

theorem unpackSign_pack_round (m : Nat) (e : Int) (a : Accuracy) :
    unpackSign (UnpackedFloat.pack .binary64
      (UnpackedFloat.roundWithAccuracy .binary64 .positive m e a)) = 0#1 := by
  simp only [UnpackedFloat.roundWithAccuracy]
  split
  case isTrue => exact unpackSign_packComponents _ _ _
  case isFalse =>
    rw [UnpackedFloat.pack]
    split
    case isTrue => exact unpackSign_packComponents _ _ _
    case isFalse => split <;> exact unpackSign_packComponents _ _ _

theorem not_negative_of_denote_nearest {p q : Rat} {negative : Bool}
    (h : denote (nearest p) = .finite negative q) : negative = false := by
  unfold nearest at h
  split at h
  case isTrue hnum =>
    have hsign := isNegative_of_denote h rfl
    have hbit := unpackSign_pack_round
      (divCore .binary64 p.num.natAbs 0 p.den 0).1 (divCore .binary64 p.num.natAbs 0 p.den 0).2.1
      (divCore .binary64 p.num.natAbs 0 p.den 0).2.2
    exact hsign.trans (congrArg (fun v => isNegative (.ofBitVec v)) hbit)
  case isFalse =>
    injection h with hsign
    exact hsign.symm

end Pseudocode.Decimal
