import Mathlib
import Pseudocode.Decimal.Nearest

/-! # Doubles in canonical form

The mantissa and the exponent that a finite double unpacks to are those that rounding aims at: the
mantissa has all its bits, or the exponent is the least one. Packing what a double unpacks to gives the
double again.
-/

namespace Pseudocode.Decimal

open Float.Model Float.Model.UnpackedFloat

/-- The mantissa and the exponent of a finite double other than zero. -/
structure Canonical (m : Nat) (e : Int) : Prop where
  pos : 0 < m
  lt : m < 2 ^ 53
  least : -1074 ≤ e
  greatest : e ≤ 971
  full : m < 2 ^ 52 → e = -1074

variable {b : BitVec Format.binary64.numBits} {s : Sign} {m : Nat} {e : Int} {hm : 0 < m}

theorem toNat_append_one (v : BitVec 52) : (1#1 ++ v).toNat = 2 ^ 52 + v.toNat := by
  rw [BitVec.toNat_append, ← Nat.shiftLeft_add_eq_or_of_lt v.isLt]
  simp [Nat.shiftLeft_eq]

theorem unpack_cases (h : UnpackedFloat.unpack .binary64 b = .finite s m e hm) :
    s = .ofBitVec (unpackSign b) ∧
    (unpackExponent b = 0#11 ∧ m = (unpackMantissa b).toNat ∧ e = -1074 ∨
      unpackExponent b ≠ 0#11 ∧ unpackExponent b ≠ -1#11 ∧
        m = 2 ^ 52 + (unpackMantissa b).toNat ∧ e = (unpackExponent b).toNat - 1075) := by
  simp only [UnpackedFloat.unpack] at h
  split at h
  case isTrue => split at h <;> cases h
  case isFalse hinf =>
    split at h
    case isTrue hzero =>
      split at h
      case isTrue => cases h
      case isFalse =>
        injection h with hs hm he
        refine ⟨hs.symm, .inl ⟨hzero, hm.symm, ?_⟩⟩
        rw [← he, hzero]
        rfl
    case isFalse hzero =>
      injection h with hs hm he
      refine ⟨hs.symm, .inr ⟨hzero, hinf, ?_, he.symm⟩⟩
      rw [← hm]
      exact toNat_append_one _

theorem canonical_of_unpack (h : UnpackedFloat.unpack .binary64 b = .finite s m e hm) :
    Canonical m e := by
  have hmantissa : (unpackMantissa b).toNat < 2 ^ 52 := (unpackMantissa b).isLt
  have hexponent : (unpackExponent b).toNat < 2 ^ 11 := (unpackExponent b).isLt
  obtain ⟨-, ⟨-, rfl, rfl⟩ | ⟨hzero, hinf, rfl, rfl⟩⟩ := unpack_cases h
  · exact ⟨hm, by omega, by omega, by omega, fun _ => rfl⟩
  · have h0 : (unpackExponent b).toNat ≠ 0 := fun h0 => hzero (BitVec.eq_of_toNat_eq h0)
    have h1 : (unpackExponent b).toNat ≠ 2047 := fun h1 => hinf (BitVec.eq_of_toNat_eq h1)
    exact ⟨hm, by omega, by omega, by omega, fun hlt => by omega⟩

theorem Canonical.log2 (h : Canonical m e) (hfull : 2 ^ 52 ≤ m) : m.log2 = 52 :=
  (Nat.log2_eq_iff h.pos.ne').2 ⟨hfull, h.lt⟩

theorem unpack_zero_cases (h : UnpackedFloat.unpack .binary64 b = .zero s) :
    s = .ofBitVec (unpackSign b) ∧ unpackExponent b = 0#11 ∧ unpackMantissa b = 0#52 := by
  simp only [UnpackedFloat.unpack] at h
  split at h
  case isTrue => split at h <;> cases h
  case isFalse =>
    split at h
    case isTrue hexponent =>
      split at h
      case isTrue hmantissa =>
        injection h with hs
        exact ⟨hs.symm, hexponent, hmantissa⟩
      case isFalse => cases h
    case isFalse => cases h

/-- Packing what a double unpacks to gives the double again. -/
theorem ofModel_pack_unpack (x : Float) : .ofModel (.pack x.toModel.unpack) = x := by
  obtain ⟨⟨⟨b⟩, hb⟩⟩ := x
  simp only [Float.Model.unpack, Float.Model.pack, pack_unpack_of_valid hb]

theorem eq_of_unpack_eq {x y : Float} (h : x.toModel.unpack = y.toModel.unpack) : x = y := by
  rw [← ofModel_pack_unpack x, h, ofModel_pack_unpack]

/-! ## Signs -/

theorem isNegative_of_denote {x : Float} {negative : Bool} {q : Rat}
    (h : denote x = .finite negative q) (hb : x.toModel.toBits.toBitVec = b) :
    negative = isNegative (.ofBitVec (unpackSign b)) := by
  subst hb
  rw [denote] at h
  split at h
  case h_1 => cases h
  case h_2 => cases h
  case h_3 s hx =>
    injection h with hs
    rw [← hs, (unpack_zero_cases hx).1]
  case h_4 s m e hm hx =>
    injection h with hs
    rw [← hs, (unpack_cases hx).1]

theorem unpack_infinity_sign (h : UnpackedFloat.unpack .binary64 b = .infinity s) :
    s = .ofBitVec (unpackSign b) := by
  simp only [UnpackedFloat.unpack] at h
  split at h
  case isTrue =>
    split at h
    case isTrue =>
      injection h with hs
      exact hs.symm
    case isFalse => cases h
  case isFalse =>
    split at h
    case isTrue => split at h <;> cases h
    case isFalse => cases h

theorem beq_self_of_denote {x : Float} {negative : Bool} {q : Rat}
    (h : denote x = .finite negative q) : (x == x) = true := by
  change (x.toModel.unpack.compare x.toModel.unpack == some .eq) = true
  rw [denote] at h
  split at h
  case h_1 => cases h
  case h_2 => cases h
  case h_3 s hx =>
    rw [hx]
    rfl
  case h_4 s m e hm hx =>
    rw [hx]
    cases s <;> simp [UnpackedFloat.compare]

theorem isFinite_eq (x : Float) : isFinite x = x.toModel.unpack.isFinite := by
  unfold isFinite denote
  cases x.toModel.unpack <;> rfl

theorem isFinite_iff {x : Float} : isFinite x ↔ ∃ negative q, denote x = .finite negative q := by
  unfold isFinite
  cases denote x <;> simp

end Pseudocode.Decimal
