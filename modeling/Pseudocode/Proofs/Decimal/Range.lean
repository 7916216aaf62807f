import Pseudocode.Proofs.Decimal.Digits

/-! # The range of doubles

The nearest double of a number is finite just if the number is less than half a unit in the last place above
the greatest finite double, which is `2 ^ 1024 - 2 ^ 971`. From there on the nearest double is infinite.
-/

namespace Pseudocode.Decimal

open Float.Model Float.Model.UnpackedFloat

variable {em : ExtendedMantissa} {acc : Accuracy} {x q : Rat} {m n : Nat} {e t : Int}

/-! ## Rounding a mantissa -/

/-- The mantissa is what is whole of the number, and the two bits after it tell how the rest compares with
one half. -/
inductive Represents : ExtendedMantissa → Rat → Prop where
  | exact (m : Nat) : Represents ⟨m, false, false⟩ m
  | below {m : Nat} {x : Rat} : m < x → x < m + 1 / 2 → Represents ⟨m, false, true⟩ x
  | half (m : Nat) : Represents ⟨m, true, false⟩ (m + 1 / 2)
  | above {m : Nat} {x : Rat} : m + 1 / 2 < x → x < m + 1 → Represents ⟨m, true, true⟩ x

theorem le_roundedMantissa (em : ExtendedMantissa) : em.mantissa ≤ em.roundedMantissa := by
  unfold ExtendedMantissa.roundedMantissa Accuracy.roundToNearestEven
  split <;> omega

theorem roundedMantissa_le (em : ExtendedMantissa) : em.roundedMantissa ≤ em.mantissa + 1 := by
  unfold ExtendedMantissa.roundedMantissa Accuracy.roundToNearestEven
  split <;> omega

namespace Represents

theorem le (h : Represents em x) : em.mantissa ≤ x := by
  cases h <;> simp only <;> linarith

theorem lt (h : Represents em x) : x < em.mantissa + 1 := by
  cases h <;> simp only <;> linarith

theorem lt_two_pow_iff (h : Represents em x) (k : Nat) : em.mantissa < 2 ^ k ↔ x < 2 ^ k := by
  constructor
  · intro hm
    have hle : (em.mantissa + 1 : Rat) ≤ 2 ^ k := by exact_mod_cast hm
    exact h.lt.trans_le hle
  · intro hx
    exact_mod_cast h.le.trans_lt hx

theorem shiftRightOne (h : Represents em x) : Represents em.shiftRightOne (x / 2) := by
  have hm : (em.mantissa : Rat) = 2 * (em.mantissa / 2 : Nat) + (em.mantissa % 2 : Nat) := by
    exact_mod_cast (Nat.div_add_mod em.mantissa 2).symm
  unfold ExtendedMantissa.shiftRightOne
  generalize em.mantissa / 2 = k at *
  -- the last bit of the mantissa becomes the next one, and the other two count as one
  rcases Nat.mod_two_eq_zero_or_one em.mantissa with hbit | hbit <;> rw [hbit] at hm ⊢
  · cases h with
    | exact m =>
      have hk : (m / 2 : Rat) = k := by push_cast at hm; linarith
      rw [hk]
      exact .exact k
    | below => exact .below (by push_cast at *; linarith) (by push_cast at *; linarith)
    | half m => exact .below (by push_cast at *; linarith) (by push_cast at *; linarith)
    | above => exact .below (by push_cast at *; linarith) (by push_cast at *; linarith)
  · cases h with
    | exact m =>
      have hk : (m / 2 : Rat) = k + 1 / 2 := by push_cast at hm; linarith
      rw [hk]
      exact .half k
    | below => exact .above (by push_cast at *; linarith) (by push_cast at *; linarith)
    | half m => exact .above (by push_cast at *; linarith) (by push_cast at *; linarith)
    | above => exact .above (by push_cast at *; linarith) (by push_cast at *; linarith)

theorem shiftRight (h : Represents em x) (n : Nat) : Represents (em >>> n) (x / 2 ^ n) := by
  induction n with
  | zero => simpa [HShiftRight.hShiftRight, Nat.repeat] using h
  | succ n ih =>
    rw [pow_succ, ← div_div]
    exact ih.shiftRightOne

/-- Rounding does not get beyond an odd number before the half after it. -/
theorem roundedMantissa_le_iff (h : Represents em x) (hn : n % 2 = 1) :
    em.roundedMantissa ≤ n ↔ x < n + 1 / 2 := by
  rcases lt_trichotomy em.mantissa n with hm | rfl | hm
  · have hle : (em.mantissa : Rat) + 1 ≤ n := by exact_mod_cast hm
    exact iff_of_true ((roundedMantissa_le em).trans hm) (by linarith [h.lt])
  · cases h with
    | exact m => exact iff_of_true (le_refl m) (by simp)
    | below _ hx => exact iff_of_true (le_refl _) hx
    | half m =>
      refine iff_of_false (show ¬ m + m % 2 ≤ m from ?_) (lt_irrefl _)
      simp only at hn
      omega
    | above hx => exact iff_of_false (Nat.not_succ_le_self _) (not_lt.2 hx.le)
  · have hlt : (n : Rat) + 1 ≤ em.mantissa := by exact_mod_cast hm
    have hround := le_roundedMantissa em
    exact iff_of_false (by omega) (by linarith [h.le])

/-- A quotient is told by its whole part and by how what is left over compares with half the divisor. -/
theorem div (a : Nat) {d : Nat} (hd : 0 < d) :
    Represents (.ofMantissaAndAccuracy (a / d) (accuracyOfFraction (a % d) d)) (a / d) := by
  have hd' : (0 : Rat) < d := Nat.cast_pos.2 hd
  have hlt : ((a % d : Nat) / d : Rat) < 1 :=
    (div_lt_one hd').2 (Nat.cast_lt.2 (Nat.mod_lt a hd))
  have ha : (a : Rat) = d * (a / d : Nat) + (a % d : Nat) := by
    exact_mod_cast (Nat.div_add_mod a d).symm
  have hq : (a / d : Rat) = (a / d : Nat) + (a % d : Nat) / d := by
    conv_lhs => rw [ha, add_div, mul_div_cancel_left₀ _ hd'.ne']
  rw [hq]
  clear ha hq
  generalize a / d = m, a % d = r at *
  unfold accuracyOfFraction
  split
  case isTrue hr =>
    rw [hr, Nat.cast_zero, zero_div, add_zero]
    exact .exact m
  case isFalse hr =>
    have hpos : (0 : Rat) < r / d := div_pos (Nat.cast_pos.2 (Nat.pos_of_ne_zero hr)) hd'
    cases hcompare : compare (2 * r) d with
    | lt =>
      have hhalf : (r / d : Rat) < 1 / 2 := by
        rw [div_lt_div_iff₀ hd' two_pos]
        exact_mod_cast (by have := Nat.compare_eq_lt.1 hcompare; omega)
      exact .below (by linarith) (by linarith)
    | eq =>
      have hhalf : (r / d : Rat) = 1 / 2 := by
        rw [div_eq_div_iff hd'.ne' two_ne_zero]
        exact_mod_cast (by have := Nat.compare_eq_eq.1 hcompare; omega)
      rw [hhalf]
      exact .half m
    | gt =>
      have hhalf : (1 / 2 : Rat) < r / d := by
        rw [div_lt_div_iff₀ two_pos hd']
        exact_mod_cast (by have := Nat.compare_eq_gt.1 hcompare; omega)
      exact .above (by linarith) (by linarith)

/-- A number rounds to less than a power of two just if it is less than half a unit before it. -/
theorem round_lt_iff {k : Int} (h : Represents em (q / 2 ^ t)) (hk : t < k) :
    (em.roundedMantissa * 2 ^ t : Rat) < 2 ^ k ↔ q < 2 ^ k - 2 ^ (t - 1) := by
  obtain ⟨j, hj⟩ := Int.eq_ofNat_of_zero_le (show 0 ≤ k - t - 1 by omega)
  have hpos : (0 : Rat) < 2 ^ t := zpow_pos two_pos t
  have hpow : (2 : Rat) ^ k = (2 ^ (j + 1) : Nat) * 2 ^ t := by
    rw [Nat.cast_pow, Nat.cast_two, ← zpow_natCast, ← zpow_add₀ two_ne_zero]
    congr 1
    omega
  obtain ⟨n, hn⟩ : ∃ n, 2 ^ (j + 1) = n + 1 := Nat.exists_eq_succ_of_ne_zero (Nat.two_pow_pos _).ne'
  have hodd : n % 2 = 1 := by
    rw [pow_succ] at hn
    omega
  have hiff := h.roundedMantissa_le_iff hodd
  rw [hpow, hn, zpow_sub_one₀ two_ne_zero]
  constructor
  · intro hlt
    have hround : em.roundedMantissa < n + 1 := Nat.cast_lt.1 (lt_of_mul_lt_mul_right hlt hpos.le)
    have hx := hiff.1 (Nat.lt_succ_iff.1 hround)
    rw [div_lt_iff₀ hpos] at hx
    push_cast
    linarith
  · intro hlt
    have hx : q / 2 ^ t < n + 1 / 2 := by
      rw [div_lt_iff₀ hpos]
      push_cast at hlt
      linarith
    exact mul_lt_mul_of_pos_right (Nat.cast_lt.2 (Nat.lt_succ_iff.2 (hiff.2 hx))) hpos

/-! ## Shifting to the exponent that rounding aims at -/

theorem shift (h : Represents (.ofMantissaAndAccuracy m acc) (q / 2 ^ e))
    (hshift : shiftToTargetExponent .binary64 m e acc = (em, t)) : Represents em (q / 2 ^ t) := by
  obtain ⟨rfl, rfl⟩ := Prod.mk.inj hshift
  rw [zpow_add₀ two_ne_zero, ← div_div, zpow_natCast]
  exact h.shiftRight _

theorem le_shift (hshift : shiftToTargetExponent .binary64 m e acc = (em, t)) : e ≤ t := by
  rw [← (Prod.mk.inj hshift).2]
  omega

theorem mantissa_ofMantissaAndAccuracy (m : Nat) (acc : Accuracy) :
    (ExtendedMantissa.ofMantissaAndAccuracy m acc).mantissa = m := by
  unfold ExtendedMantissa.ofMantissaAndAccuracy
  split <;> rfl

/-- The exponent is so large that the number has fifty-three bits, and not larger than need be. -/
theorem shift_le_iff {k : Int} (h : Represents (.ofMantissaAndAccuracy m acc) (q / 2 ^ e))
    (hshift : shiftToTargetExponent .binary64 m e acc = (em, t)) (he : e ≤ k) (hk : -1074 ≤ k) :
    t ≤ k ↔ q < 2 ^ (k + 53) := by
  obtain ⟨j, hj⟩ := Int.eq_ofNat_of_zero_le (show 0 ≤ k + 53 - e by omega)
  have hlog : m.log2 < j ↔ m < 2 ^ j := by
    rcases Nat.eq_zero_or_pos m with rfl | hm
    · exact iff_of_true (by rw [Nat.log2_zero]; omega) (Nat.two_pow_pos j)
    · exact Nat.log2_lt hm.ne'
  have hlt := h.lt_two_pow_iff j
  rw [mantissa_ofMantissaAndAccuracy, div_lt_iff₀ (zpow_pos two_pos e), ← zpow_natCast,
    ← zpow_add₀ two_ne_zero, show (j : Int) + e = k + 53 by omega] at hlt
  rw [← hlt, ← hlog, ← (Prod.mk.inj hshift).2, targetExponent_eq, totalExponent]
  omega

theorem shift_le_of_mantissa_eq_zero (h : Represents (.ofMantissaAndAccuracy m acc) (q / 2 ^ e))
    (hshift : shiftToTargetExponent .binary64 m e acc = (em, t)) (hzero : em.mantissa = 0) :
    t ≤ max e (-1074) := by
  by_contra hlt
  have hq : q < 2 ^ t := by
    have hone := (h.shift hshift).lt
    rwa [hzero, Nat.cast_zero, zero_add, div_lt_one (zpow_pos two_pos t)] at hone
  have hmono : (2 : Rat) ^ t ≤ 2 ^ (t - 1 + 53) := zpow_le_zpow_right₀ one_le_two (by omega)
  have hle := (h.shift_le_iff hshift (k := t - 1) (by omega) (by omega)).2 (hq.trans_le hmono)
  omega

end Represents

/-! ## Overflow -/

/-- The least number that is not in the range of doubles: half a unit in the last place above the greatest
finite double. -/
def overflow : Rat :=
  2 ^ 1024 - 2 ^ 970

/-- The double is finite if the number is in the range of doubles, and else the positive infinity. -/
structure Ranged (q : Rat) (x : Float) : Prop where
  finite : q < overflow → isFinite x
  infinite : overflow ≤ q → denote x = .infinite false

theorem overflow_eq : overflow = 2 ^ (1024 : Int) - 2 ^ (970 : Int) := by
  rw [zpow_ofNat, zpow_ofNat, overflow]

theorem overflow_le : overflow ≤ 2 ^ (1024 : Int) := by
  rw [overflow_eq]
  exact sub_le_self _ (zpow_pos two_pos _).le

theorem two_pow_le_overflow : (2 : Rat) ^ (1023 : Int) ≤ overflow := by
  rw [overflow_eq, le_sub_iff_add_le, show (1024 : Int) = 1023 + 1 by rfl, zpow_add_one₀ two_ne_zero,
    mul_two]
  exact add_le_add_right (zpow_le_zpow_right₀ one_le_two (by decide)) _

theorem one_le_overflow : 1 ≤ overflow :=
  (one_le_zpow₀ one_le_two (by decide)).trans two_pow_le_overflow

theorem ranged_of_isFinite {x : Float} (h : isFinite x) (hq : q < overflow) : Ranged q x :=
  ⟨fun _ => h, fun hle => absurd hq (not_lt.2 hle)⟩

theorem isFinite_unpack (b : BitVec Format.binary64.numBits) :
    (UnpackedFloat.unpack .binary64 b).isFinite ↔ unpackExponent b ≠ -1#11 := by
  simp only [UnpackedFloat.unpack]
  split
  case isTrue hinf =>
    refine iff_of_false ?_ (not_not_intro hinf)
    split <;> nofun
  case isFalse hinf =>
    refine iff_of_true ?_ hinf
    split
    case isTrue => split <;> rfl
    case isFalse => rfl

theorem ranged_pack {hm : 0 < m} (h : e ≤ 971 ↔ q < overflow) :
    Ranged q (.ofModel (.pack (.finite .positive m e hm))) := by
  have hunpack : (Float.ofModel (.pack (.finite .positive m e hm))).toModel.unpack =
      UnpackedFloat.unpack .binary64 (UnpackedFloat.pack .binary64 (.finite .positive m e hm)) := rfl
  rw [UnpackedFloat.pack] at hunpack
  generalize hbiased : (e + Format.binary64.exponentBias +
    Format.binary64.mantissaBitsWithoutImplicit).toNat = biased at hunpack
  have hbias : biased = (e + 1075).toNat :=
    hbiased.symm.trans (congrArg Int.toNat (add_assoc _ _ _))
  constructor
  · intro hq
    have he := h.2 hq
    rw [if_neg (show ¬ 2 ^ 11 ≤ biased + 1 by omega)] at hunpack
    rw [isFinite_eq, hunpack, isFinite_unpack]
    split
    case isTrue =>
      rw [unpackExponent_packComponents]
      intro heq
      have hmod : biased % 2 ^ 11 = 2047 :=
        (BitVec.toNat_ofNat ..).symm.trans (congrArg BitVec.toNat heq)
      omega
    case isFalse =>
      rw [unpackExponent_packComponents]
      decide
  · intro hq
    have he : ¬ e ≤ 971 := mt h.1 (not_lt.2 hq)
    rw [if_pos (show 2 ^ 11 ≤ biased + 1 by omega)] at hunpack
    rw [denote, hunpack]
    rfl

namespace Represents

variable {em' : ExtendedMantissa} {t' : Int}

theorem exact_round (em : ExtendedMantissa) (t : Int) :
    Represents (.ofMantissaAndAccuracy em.roundedMantissa .exact)
      (em.roundedMantissa * 2 ^ t / 2 ^ t) := by
  rw [mul_div_cancel_right₀ _ (zpow_pos two_pos t).ne']
  exact .exact _

theorem exponent_le_iff (h : Represents (.ofMantissaAndAccuracy m acc) (q / 2 ^ e)) (he : e ≤ 0)
    (hshift : shiftToTargetExponent .binary64 m e acc = (em, t))
    (hshift' : shiftToTargetExponent .binary64 em.roundedMantissa t .exact = (em', t')) :
    t' ≤ 971 ↔ q < overflow := by
  rcases lt_trichotomy t 971 with ht | rfl | ht
  · -- the number is so small that half a unit in its last place does not matter
    have hq : q < overflow :=
      ((h.shift_le_iff hshift (k := 970) (by omega) (by decide)).1 (by omega)).trans_le
        two_pow_le_overflow
    have hunit : overflow ≤ 2 ^ (1024 : Int) - 2 ^ (t - 1) := by
      rw [overflow_eq]
      exact sub_le_sub_left (zpow_le_zpow_right₀ one_le_two (by omega)) _
    rw [(exact_round em t).shift_le_iff hshift' ht.le (by decide),
      (h.shift hshift).round_lt_iff (by omega)]
    exact iff_of_true (hq.trans_le hunit) hq
  · rw [(exact_round em 971).shift_le_iff hshift' le_rfl (by decide),
      (h.shift hshift).round_lt_iff (by decide), overflow_eq]
    rfl
  · have hq : ¬ q < 2 ^ (1024 : Int) :=
      mt (h.shift_le_iff hshift (k := 971) (by omega) (by decide)).2 (by omega)
    have hle := le_shift hshift'
    exact iff_of_false (by omega) fun hlt => hq (hlt.trans_le overflow_le)

theorem exponent_le_of_mantissa_eq_zero (h : Represents (.ofMantissaAndAccuracy m acc) (q / 2 ^ e))
    (he : e ≤ 0) (hshift : shiftToTargetExponent .binary64 m e acc = (em, t))
    (hshift' : shiftToTargetExponent .binary64 em.roundedMantissa t .exact = (em', t'))
    (hzero : em'.mantissa = 0) : t' ≤ 971 := by
  by_contra hlt
  have hle := le_shift hshift'
  have hle' := (exact_round em t).shift_le_of_mantissa_eq_zero hshift' hzero
  obtain rfl : t' = t := by omega
  -- nothing was lost in the second shift, and so what was rounded is zero already
  have hround : em.roundedMantissa = 0 := by
    have hone := ((exact_round em t').shift hshift').lt
    rw [hzero, mul_div_cancel_right₀ _ (zpow_pos two_pos t').ne', Nat.cast_zero, zero_add] at hone
    exact Nat.cast_lt_one.1 hone
  have hm := le_roundedMantissa em
  have hfirst := h.shift_le_of_mantissa_eq_zero hshift (by omega)
  omega

end Represents

theorem ranged_round (h : Represents (.ofMantissaAndAccuracy m acc) (q / 2 ^ e)) (he : e ≤ 0) :
    Ranged q (.ofModel (.pack (roundWithAccuracy .binary64 .positive m e acc))) := by
  obtain ⟨em, t, hshift⟩ : ∃ em t, shiftToTargetExponent .binary64 m e acc = (em, t) := ⟨_, _, rfl⟩
  obtain ⟨em', t', hshift'⟩ : ∃ em' t',
    shiftToTargetExponent .binary64 em.roundedMantissa t .exact = (em', t') := ⟨_, _, rfl⟩
  have hiff := h.exponent_le_iff he hshift hshift'
  simp only [roundWithAccuracy, hshift, hshift']
  split
  case isTrue hzero =>
    exact ranged_of_isFinite rfl
      (hiff.1 (h.exponent_le_of_mantissa_eq_zero he hshift hshift' hzero))
  case isFalse => exact ranged_pack hiff

/-! ## The nearest double -/

theorem natAbs_num_div_den (hq : 0 ≤ q) : (q.num.natAbs / q.den : Rat) = q := by
  rw [← Int.cast_natCast, Int.natAbs_of_nonneg (Rat.num_nonneg.2 hq), Rat.num_div_den]

theorem ranged_nearest (hq : 0 ≤ q) : Ranged q (nearest q) := by
  unfold nearest
  split
  case isTrue hnum =>
    generalize ht : min 0 (Format.binary64.targetExponent
      (totalExponent q.num.natAbs 0 - totalExponent q.den 0)) = t
    obtain ⟨k, hk⟩ : ∃ k : Nat, t = -k := ⟨(-t).toNat, by omega⟩
    have hcore : divCore .binary64 q.num.natAbs 0 q.den 0 =
        (q.num.natAbs * 2 ^ k / q.den, t,
          accuracyOfFraction (q.num.natAbs * 2 ^ k % q.den) q.den) := by
      simp only [divCore, sub_self, ht]
      rw [show (0 - t).toNat = k by omega, Nat.shiftLeft_eq]
    have hvalue : ((q.num.natAbs * 2 ^ k : Nat) / q.den : Rat) = q / 2 ^ t := by
      rw [Nat.cast_mul, mul_div_right_comm, natAbs_num_div_den hq, hk, zpow_neg, div_inv_eq_mul,
        zpow_natCast, Nat.cast_pow, Nat.cast_two]
    rw [UnpackedFloat.div, hcore]
    exact ranged_round (hvalue ▸ .div _ q.den_pos) (by omega)
  case isFalse hnum =>
    obtain rfl : q = 0 := by
      rw [← Rat.num_eq_zero]
      omega
    exact ranged_of_isFinite rfl (one_pos.trans_le one_le_overflow)

theorem Digits.toRat_nonneg (d : Digits) : 0 ≤ d.toRat :=
  mul_nonneg (Nat.cast_nonneg _) (zpow_nonneg (by decide) _)

theorem overflow_le_ten_pow {k : Int} (hk : 400 < k) : overflow ≤ 10 ^ k := by
  have hten : (2 : Rat) ^ (3 * 400) ≤ 10 ^ 400 := by exact_mod_cast two_pow_le_ten_pow 400
  calc overflow ≤ 2 ^ (1024 : Int) := overflow_le
    _ ≤ 2 ^ ((3 * 400 : Nat) : Int) := zpow_le_zpow_right₀ one_le_two (by decide)
    _ ≤ 10 ^ ((400 : Nat) : Int) := by rwa [zpow_natCast, zpow_natCast]
    _ ≤ 10 ^ k := zpow_le_zpow_right₀ (by norm_num) (by omega)

/-- Digits become a finite double just if their value is in the range of doubles. -/
theorem Digits.ranged_toFloat (d : Digits) : Ranged d.toRat d.toFloat := by
  rw [toFloat]
  split
  case isTrue h =>
    have hzero : d.toRat = 0 := by rw [toRat, h, Nat.cast_zero, zero_mul]
    exact ranged_of_isFinite rfl (hzero ▸ one_pos.trans_le one_le_overflow)
  case isFalse h =>
    split
    case isTrue hlarge =>
      have hone : (1 : Rat) ≤ d.coefficient := Nat.one_le_cast.2 (Nat.pos_of_ne_zero h)
      have hle : overflow ≤ d.toRat :=
        (overflow_le_ten_pow hlarge).trans
          (le_mul_of_one_le_left (zpow_pos (by norm_num) _).le hone)
      exact ⟨fun hlt => absurd hlt (not_lt.2 hle), fun _ => rfl⟩
    case isFalse =>
      split
      case isTrue hsmall =>
        have hlt : d.toRat < 1 :=
          d.lt_pow_lead.trans_le (zpow_le_one_of_nonpos₀ (by norm_num) (by omega))
        exact ranged_of_isFinite rfl (hlt.trans_le one_le_overflow)
      case isFalse => exact ranged_nearest d.toRat_nonneg

end Pseudocode.Decimal
