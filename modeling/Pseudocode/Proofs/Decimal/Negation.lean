import Pseudocode.Proofs.Decimal.Comparison

/-! # Negative doubles

Packing a canonical mantissa and exponent keeps them, with either sign, so that a minus sign changes the
sign of a double and nothing else.
-/

namespace Pseudocode.Decimal

open Float.Model Float.Model.UnpackedFloat

variable {m : Nat} {e : Int} {x : Float} {negative : Bool} {q : Rat}

/-! ## Packing and unpacking again -/

theorem unpack_subnormal (s : Sign) {mantissa : BitVec 52} (hm : 0 < mantissa.toNat) :
    UnpackedFloat.unpack .binary64 (packComponents .binary64 s 0#11 mantissa) =
      .finite s mantissa.toNat (-1074) hm := by
  have hne : mantissa ≠ 0#52 := by
    rintro rfl
    exact absurd hm (by decide)
  simp only [UnpackedFloat.unpack, unpackMantissa_packComponents, unpackExponent_packComponents,
    unpackSign_packComponents, Sign.ofBitVec_toBitVec]
  rw [if_neg (by decide), if_pos trivial, dif_neg hne]
  rfl

theorem unpack_normal (s : Sign) {exponent : BitVec 11} (mantissa : BitVec 52) (hzero : exponent ≠ 0#11)
    (hinf : exponent ≠ -1#11) :
    UnpackedFloat.unpack .binary64 (packComponents .binary64 s exponent mantissa) =
      .finite s (2 ^ 52 + mantissa.toNat) (exponent.toNat - 1075) (by omega) := by
  simp only [UnpackedFloat.unpack, unpackMantissa_packComponents, unpackExponent_packComponents,
    unpackSign_packComponents, Sign.ofBitVec_toBitVec]
  rw [if_neg hinf, if_neg hzero, UnpackedFloat.finite.injEq]
  exact ⟨rfl, toNat_append_one mantissa, rfl⟩

theorem Canonical.unpack_pack (h : Canonical m e) (s : Sign) :
    UnpackedFloat.unpack .binary64 (UnpackedFloat.pack .binary64 (.finite s m e h.pos)) =
      .finite s m e h.pos := by
  generalize hbiased : (e + Format.binary64.exponentBias +
    Format.binary64.mantissaBitsWithoutImplicit).toNat = biased
  obtain ⟨hpos, hlt, hleast, hgreatest, hsubnormal⟩ := h
  have hbias : (biased : Int) = e + 1075 := by
    simp only [Format.exponentBias] at hbiased
    omega
  rw [UnpackedFloat.pack, hbiased, if_neg (show ¬ 2 ^ 11 ≤ biased + 1 by omega)]
  by_cases hfull : 2 ^ 52 ≤ m
  · have hexponent : (BitVec.ofNat 11 biased).toNat = biased := by
      rw [BitVec.toNat_ofNat, Nat.mod_eq_of_lt (by omega)]
    have hmantissa : 2 ^ 52 + (BitVec.ofNat 52 m).toNat = m := by
      rw [BitVec.toNat_ofNat]
      omega
    have hzero : BitVec.ofNat 11 biased ≠ 0#11 := fun hb => by
      have h0 : biased = 0 := hexponent.symm.trans (congrArg BitVec.toNat hb)
      omega
    have hinf : BitVec.ofNat 11 biased ≠ -1#11 := fun hb => by
      have h1 : biased = 2047 := hexponent.symm.trans (congrArg BitVec.toNat hb)
      omega
    have hlog : m.log2 = 52 := (Nat.log2_eq_iff hpos.ne').2 ⟨hfull, hlt⟩
    rw [if_pos (by rw [hlog]; rfl), unpack_normal s _ hzero hinf, UnpackedFloat.finite.injEq, hexponent]
    exact ⟨rfl, hmantissa, by omega⟩
  · have hmantissa : (BitVec.ofNat 52 m).toNat = m := by
      rw [BitVec.toNat_ofNat, Nat.mod_eq_of_lt (by omega)]
    have hlog : m.log2 < 52 := (Nat.log2_lt hpos.ne').2 (by omega)
    have hmantissaPos : 0 < (BitVec.ofNat 52 m).toNat := by rwa [hmantissa]
    rw [if_neg (by simp only [Format.mantissaBits]; omega), unpack_subnormal s hmantissaPos,
      UnpackedFloat.finite.injEq]
    exact ⟨rfl, hmantissa, (hsubnormal (by omega)).symm⟩

/-! ## The opposite double -/

theorem unpack_neg (x : Float) : (-x).toModel.unpack = x.toModel.unpack.neg := by
  change UnpackedFloat.unpack .binary64 (UnpackedFloat.pack .binary64 x.toModel.unpack.neg) = _
  cases hx : x.toModel.unpack with
  | notANumber => rfl
  | infinity s => cases s <;> rfl
  | zero s => cases s <;> rfl
  | finite s m e hm => exact (canonical_of_unpack hx).unpack_pack (-s)

theorem isNegative_neg (s : Sign) : isNegative (-s) = !isNegative s := by
  cases s <;> rfl

theorem denote_neg (h : denote x = .finite negative q) : denote (-x) = .finite (!negative) q := by
  unfold denote at h ⊢
  rw [unpack_neg]
  split at h
  case h_1 => cases h
  case h_2 => cases h
  case h_3 s hx =>
    cases h
    simp only [hx, UnpackedFloat.neg, isNegative_neg]
  case h_4 s m e hm hx =>
    cases h
    simp only [hx, UnpackedFloat.neg, isNegative_neg]

theorem isFinite_neg (x : Float) : isFinite (-x) = isFinite x := by
  rw [isFinite_eq, isFinite_eq, unpack_neg]
  cases x.toModel.unpack <;> rfl

theorem neg_neg_unpacked (u : UnpackedFloat) : u.neg.neg = u := by
  have hsign (s : Sign) : - -s = s := by
    cases s <;> rfl
  cases u <;> simp only [UnpackedFloat.neg, hsign]

theorem neg_neg_float (x : Float) : - -x = x := by
  apply eq_of_unpack_eq
  rw [unpack_neg, unpack_neg, neg_neg_unpacked]

theorem Layout.toList_render_negative (l : Layout) (h : denote x = .finite true q) :
    (l.render x).toList = '-' :: (l.render (-x)).toList := by
  rw [render, render, h, denote_neg h]
  simp

end Pseudocode.Decimal
