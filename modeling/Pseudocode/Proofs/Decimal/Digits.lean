import Pseudocode.Decimal.Digits
import Pseudocode.Proofs.Decimal.Nearest

/-! # The shortest digits of a double

The shortest digits of a double have it as their nearest double, and they are not so small that
reading them gives zero.
-/

namespace Pseudocode.Decimal

variable {x : Float} {q : Rat}

namespace Digits

theorem trim_toRat (d : Digits) : d.trim.toRat = d.toRat := by
  fun_induction trim d with
  | case1 d h ih =>
    have hc : (d.coefficient : Rat) = (d.coefficient / 10 : Nat) * 10 := by
      have hdvd := Nat.div_mul_cancel (Nat.dvd_of_mod_eq_zero h.2)
      exact_mod_cast hdvd.symm
    rw [ih, toRat, toRat, hc, zpow_add₀ (by norm_num), zpow_one]
    ring
  | case2 d h => rfl

theorem lt_pow_lead (d : Digits) : d.toRat < 10 ^ (d.lead + 1) := by
  have hw : d.coefficient < 10 ^ width d.coefficient :=
    (Nat.length_toDigits_le_iff (by decide) Nat.length_toDigits_pos).1 le_rfl
  have hlead : d.lead + 1 = width d.coefficient + d.exponent := by
    rw [lead]
    ring
  rw [toRat, hlead, zpow_add₀ (by norm_num), zpow_natCast]
  refine mul_lt_mul_of_pos_right ?_ (zpow_pos (by norm_num) _)
  exact_mod_cast hw

theorem toFloat_eq_nearest {d : Digits} (he : d.exponent ≤ 400)
    (hlarge : d.toRat ≠ 0 → (10 : Rat) ^ (-400 : Int) ≤ d.toRat) : d.toFloat = nearest d.toRat := by
  rw [toFloat]
  split
  case isTrue h => rw [toRat, h, Nat.cast_zero, zero_mul, nearest_zero]
  case isFalse h =>
    have hne : d.toRat ≠ 0 := mul_ne_zero (Nat.cast_ne_zero.2 h) (zpow_ne_zero _ (by norm_num))
    have hlead : ¬ d.lead < -400 := by
      intro hlt
      have hle : (10 : Rat) ^ (d.lead + 1) ≤ 10 ^ (-400 : Int) :=
        zpow_le_zpow_right₀ (by norm_num) (by omega)
      exact absurd (hlarge hne) (not_le.2 (d.lt_pow_lead.trans_le hle))
    rw [if_neg (by omega), if_neg hlead]

theorem not_negative_of_denote_toFloat {d : Digits} {negative : Bool}
    (h : denote d.toFloat = .finite negative q) : negative = false := by
  rw [toFloat] at h
  split at h
  case isTrue => cases h; rfl
  case isFalse =>
    split at h
    case isTrue => cases h
    case isFalse =>
      split at h
      case isTrue => cases h; rfl
      case isFalse => exact not_negative_of_denote_nearest h

end Digits

theorem nearest_of_onGrid {tie : Tie} {k : Int} {d : Digits} (h : onGrid tie q x k = some d) :
    nearest d.toRat = x ∧ d.exponent = k := by
  simp only [onGrid] at h
  split at h
  case h_1 hbelow habove =>
    obtain rfl := Option.some.inj h
    exact iteInduction (motive := fun d : Digits => nearest d.toRat = x ∧ d.exponent = k)
      (fun _ => ⟨of_decide_eq_true habove, rfl⟩) fun _ => ⟨of_decide_eq_true hbelow, rfl⟩
  case h_2 hbelow _ =>
    obtain rfl := Option.some.inj h
    exact ⟨of_decide_eq_true hbelow, rfl⟩
  case h_3 _ habove =>
    obtain rfl := Option.some.inj h
    exact ⟨of_decide_eq_true habove, rfl⟩
  case h_4 => cases h

/-- The value of a double that is not negative: zero, or a canonical mantissa and exponent. -/
theorem canonical_of_denote (h : denote x = .finite false q) :
    q = 0 ∨ ∃ m e, Canonical m e ∧ q = m * 2 ^ e := by
  rw [denote] at h
  split at h
  case h_1 => cases h
  case h_2 => cases h
  case h_3 s hx =>
    injection h with _ hq
    exact .inl hq.symm
  case h_4 s m e hm hx =>
    injection h with _ hq
    exact .inr ⟨m, e, canonical_of_unpack hx, hq.symm⟩

theorem den_dvd_two_pow (m : Nat) {e : Int} {k : Nat} (he : -k ≤ e) :
    (m * 2 ^ e : Rat).den ∣ 2 ^ k := by
  obtain ⟨l, hl⟩ := Int.eq_ofNat_of_zero_le (show 0 ≤ e + k by omega)
  have hpow : (2 : Rat) ^ e = 2 ^ l / 2 ^ k := by
    rw [eq_div_iff (by positivity), ← zpow_natCast, ← zpow_natCast, ← zpow_add₀ two_ne_zero, hl]
  have heq : (m * 2 ^ e : Rat) = Rat.divInt (m * 2 ^ l : Nat) (2 ^ k : Nat) := by
    rw [Rat.divInt_eq_div]
    push_cast
    rw [hpow]
    ring
  rw [heq]
  exact Int.natCast_dvd_natCast.1 (Rat.den_dvd _ _)

theorem exact_toRat {k : Nat} (hq : 0 ≤ q) (hk : q.den ∣ 2 ^ k) : (exact q).toRat = q := by
  obtain ⟨j, -, hj⟩ := (Nat.dvd_prime_pow Nat.prime_two).1 hk
  have hnum : ((q.num.natAbs : Int) : Rat) = q.num := by
    rw [Int.natAbs_of_nonneg (Rat.num_nonneg.2 hq)]
  have hlog : q.den.log2 = j := by rw [hj, Nat.log2_two_pow]
  have hpow : (10 : Rat) ^ j = 5 ^ j * 2 ^ j := by rw [← mul_pow]; norm_num
  have hden : (q.den : Rat) = 2 ^ j := by exact_mod_cast hj
  rw [Int.cast_natCast] at hnum
  rw [Digits.toRat, exact, hlog, Nat.pow_eq]
  push_cast
  rw [hnum, zpow_neg, zpow_natCast, hpow]
  conv => rhs; rw [← Rat.num_div_den q, hden]
  field_simp

theorem denote_zero : denote 0 = .finite false 0 :=
  rfl

theorem le_leadOf {k : Nat} (hk : 0 < k) (hq : q.den ≤ 10 ^ k) : -k ≤ leadOf q := by
  rw [leadOf]
  split
  case isTrue => have : 0 < width q.floor.toNat := Nat.length_toDigits_pos; omega
  case isFalse =>
    have hlt : (q.den - 1) / q.num.toNat < 10 ^ k := by
      have hle := Nat.div_le_self (q.den - 1) q.num.toNat
      have hpos := q.den_pos
      omega
    have hw : width ((q.den - 1) / q.num.toNat) ≤ k :=
      (Nat.length_toDigits_le_iff (by decide) hk).2 hlt
    omega

theorem two_pow_le_ten_pow (k : Nat) : 2 ^ (3 * k) ≤ 10 ^ k := by
  rw [pow_mul]
  exact Nat.pow_le_pow_left (by decide) k

theorem ten_zpow_neg_le (k : Nat) : (10 : Rat) ^ (-k : Int) ≤ 2 ^ (-(3 * k : Nat) : Int) := by
  rw [zpow_neg, zpow_neg, zpow_natCast, zpow_natCast]
  exact inv_anti₀ (by positivity) (by exact_mod_cast two_pow_le_ten_pow k)

/-- The least double that is not zero is far above the least power of ten that is read. -/
theorem Canonical.le {m : Nat} {e : Int} (h : Canonical m e) :
    (10 : Rat) ^ (-400 : Int) ≤ m * 2 ^ e := by
  have hm : (1 : Rat) ≤ m := Nat.one_le_cast.2 h.pos
  calc (10 : Rat) ^ (-400 : Int) ≤ 10 ^ (-(358 : Nat) : Int) :=
        zpow_le_zpow_right₀ (by norm_num) (by decide)
    _ ≤ 2 ^ (-(3 * 358 : Nat) : Int) := ten_zpow_neg_le 358
    _ ≤ 2 ^ e := zpow_le_zpow_right₀ one_le_two (by simpa using h.least)
    _ = 1 * 2 ^ e := (one_mul _).symm
    _ ≤ m * 2 ^ e := mul_le_mul_of_nonneg_right hm (zpow_nonneg two_pos.le e)

theorem den_le_ten_pow (m : Nat) {e : Int} {k : Nat} (he : -(3 * k : Nat) ≤ e) :
    (m * 2 ^ e : Rat).den ≤ 10 ^ k :=
  (Nat.le_of_dvd (Nat.two_pow_pos _) (den_dvd_two_pow m he)).trans (two_pow_le_ten_pow k)

theorem Canonical.le_leadOf {m : Nat} {e : Int} (h : Canonical m e) : -358 ≤ leadOf (m * 2 ^ e) :=
  Decimal.le_leadOf (k := 358) (by decide) (den_le_ten_pow m (by simpa using h.least))

theorem Digits.le_toRat {d : Digits} (hc : d.coefficient ≠ 0) (he : -400 ≤ d.exponent) :
    (10 : Rat) ^ (-400 : Int) ≤ d.toRat := by
  have hone : (1 : Rat) ≤ d.coefficient := Nat.one_le_cast.2 (Nat.pos_of_ne_zero hc)
  calc (10 : Rat) ^ (-400 : Int) ≤ 10 ^ d.exponent := zpow_le_zpow_right₀ (by norm_num) he
    _ = 1 * 10 ^ d.exponent := (one_mul _).symm
    _ ≤ d.toRat := mul_le_mul_of_nonneg_right hone (zpow_nonneg (by norm_num) _)

theorem ne_zero_of_denote (h : denote x = .finite false q) (hq : q ≠ 0) : x ≠ 0 := by
  rintro rfl
  rw [denote_zero] at h
  injection h with _ h0
  exact hq h0.symm

/-- The shortest digits of a double have it as their nearest double; they are those of zero or not
too small to be read again. -/
theorem shortest_spec (tie : Tie) (h : denote x = .finite false q) :
    nearest (shortest tie q).toRat = x ∧
      ((shortest tie q).toRat ≠ 0 → (10 : Rat) ^ (-400 : Int) ≤ (shortest tie q).toRat) := by
  have hx := nearest_of_denote h
  rw [shortest]
  split
  case isTrue h0 =>
    subst h0
    rw [Digits.toRat, Nat.cast_zero, zero_mul]
    exact ⟨hx, fun hne => absurd rfl hne⟩
  case isFalse h0 =>
    obtain rfl | ⟨m, e, hc, rfl⟩ := canonical_of_denote h
    · exact absurd rfl h0
    rw [Digits.trim_toRat, hx]
    generalize hd : Option.getD _ (exact (m * 2 ^ e : Rat)) = d
    suffices nearest d.toRat = x ∧ (10 : Rat) ^ (-400 : Int) ≤ d.toRat from
      ⟨this.1, fun _ => this.2⟩
    cases hfound : List.findSome? (fun n : Nat => onGrid tie (m * 2 ^ e : Rat) x
        (leadOf (m * 2 ^ e : Rat) - n)) (List.range 17) with
    | none =>
      have hnonneg : (0 : Rat) ≤ m * 2 ^ e := (zpow_pos (by norm_num) _).le.trans hc.le
      have hexact : d.toRat = m * 2 ^ e := by
        rw [← hd, hfound, Option.getD_none]
        exact exact_toRat (k := (-e).toNat) hnonneg (den_dvd_two_pow m (by omega))
      rw [hexact]
      exact ⟨hx, hc.le⟩
    | some d' =>
      rw [hfound, Option.getD_some] at hd
      subst hd
      obtain ⟨n, hn, hgrid⟩ := List.exists_of_findSome?_eq_some hfound
      obtain ⟨hnearest, hexponent⟩ := nearest_of_onGrid hgrid
      have hcoefficient : d'.coefficient ≠ 0 := by
        refine fun hzero => ne_zero_of_denote h h0 ?_
        rw [← hnearest, Digits.toRat, hzero, Nat.cast_zero, zero_mul, nearest_zero]
      have hn' : n < 17 := List.mem_range.1 hn
      have hlead := hc.le_leadOf
      exact ⟨hnearest, Digits.le_toRat hcoefficient (by omega)⟩

end Pseudocode.Decimal
