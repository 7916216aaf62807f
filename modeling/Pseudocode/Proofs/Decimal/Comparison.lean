import Pseudocode.Proofs.Decimal.Numeral

/-! # Doubles that compare as equal

Two doubles that compare as equal have the same bits, but for the two zeros. A numeral without a sign is read
as a double without one, so such numerals compare as equal only if they are read as the same double.
-/

namespace Pseudocode.Decimal

open Float.Model Float.Model.UnpackedFloat

variable {x y : Float}

/-- The sign bit of the double is not set. -/
def Unsigned (x : Float) : Prop :=
  @unpackSign .binary64 x.toModel.toBits.toBitVec = 0#1

/-! ## Comparison -/

theorem eq_of_compare_then {m m' : Nat} {e e' : Int} (h : (compare e e').then (compare m m') = .eq) :
    m = m' ∧ e = e' := by
  obtain ⟨he, hm⟩ := Ordering.then_eq_eq.mp h
  exact ⟨Nat.compare_eq_eq.mp hm, Int.compare_eq_eq.mp he⟩

/-- What compares as equal unpacks to the same, but for the signs of zeros. -/
theorem compare_eq_cases {u v : UnpackedFloat} (h : u.compare v = some .eq) :
    u = v ∨ ∃ s s', u = .zero s ∧ v = .zero s' := by
  cases u with
  | notANumber => simp [UnpackedFloat.compare] at h
  | infinity s =>
    cases v with
    | infinity s' => cases s <;> cases s' <;> simp_all [UnpackedFloat.compare]
    | _ => cases s <;> simp [UnpackedFloat.compare] at h
  | zero s =>
    cases v with
    | zero s' => exact .inr ⟨s, s', rfl, rfl⟩
    | infinity s' => cases s' <;> simp [UnpackedFloat.compare] at h
    | finite s' m e hm => cases s' <;> simp [UnpackedFloat.compare] at h
    | notANumber => simp [UnpackedFloat.compare] at h
  | finite s m e hm =>
    cases v with
    | finite s' m' e' hm' =>
      have hthen : s = s' ∧ (compare e e').then (compare m m') = .eq := by
        cases s <;> cases s' <;> simp [UnpackedFloat.compare] at h ⊢ <;> exact h
      obtain ⟨rfl, hthen⟩ := hthen
      obtain ⟨rfl, rfl⟩ := eq_of_compare_then hthen
      exact .inl rfl
    | infinity s' => cases s' <;> simp [UnpackedFloat.compare] at h
    | zero s' => cases s <;> simp [UnpackedFloat.compare] at h
    | notANumber => simp [UnpackedFloat.compare] at h

theorem beq_iff : (x == y) = true ↔ x.toModel.unpack.compare y.toModel.unpack = some .eq := by
  change (x.toModel.unpack.compare y.toModel.unpack == some .eq) = true ↔ _
  exact beq_iff_eq

theorem eq_or_zero_of_beq (h : (x == y) = true) :
    x = y ∨ ∃ s s', x.toModel.unpack = .zero s ∧ y.toModel.unpack = .zero s' :=
  (compare_eq_cases (beq_iff.mp h)).imp_left eq_of_unpack_eq

theorem Unsigned.eq (hx : Unsigned x) (hy : Unsigned y) (h : (x == y) = true) : x = y := by
  rcases eq_or_zero_of_beq h with heq | ⟨s, s', hs, hs'⟩
  · exact heq
  · have hsign : s = s' := by
      rw [(unpack_zero_cases hs).1, (unpack_zero_cases hs').1, hx, hy]
    exact eq_of_unpack_eq (by rw [hs, hs', hsign])

theorem Unsigned.denote_cases (hx : Unsigned x) :
    denote x = .nan ∨ denote x = .infinite false ∨ ∃ q, denote x = .finite false q := by
  cases h : denote x with
  | nan => exact .inl rfl
  | infinite negative =>
    rw [denote] at h
    split at h
    case h_2 s hs =>
      rw [unpack_infinity_sign hs, hx] at h
      exact .inr (.inl h.symm)
    all_goals cases h
  | finite negative q =>
    obtain rfl : negative = false := by
      rw [isNegative_of_denote h rfl, hx]
      rfl
    exact .inr (.inr ⟨q, rfl⟩)

/-! ## Numerals without a sign -/

theorem unsigned_nearest (q : Rat) : Unsigned (nearest q) := by
  unfold nearest
  split
  case isTrue => exact unpackSign_pack_round _ _ _
  case isFalse => rfl

theorem Digits.unsigned_toFloat (d : Digits) : Unsigned d.toFloat := by
  rw [toFloat]
  split
  case isTrue => rfl
  case isFalse =>
    split
    case isTrue => rfl
    case isFalse =>
      split
      case isTrue => rfl
      case isFalse => exact unsigned_nearest _

theorem unsigned_of_parseFloat? {c : Char} {cs : List Char} (hc : c.isDigit)
    (h : parseFloat? (c :: cs) = some x) : Unsigned x := by
  rw [parseFloat?, splitSign_of_isDigit hc] at h
  obtain ⟨y, hy, hsigned⟩ := Option.map_eq_some_iff.mp h
  obtain rfl : y = x := hsigned
  unfold parseMagnitude? at hy
  split at hy
  case h_4 =>
    obtain ⟨d, -, rfl⟩ := Option.map_eq_some_iff.mp hy
    exact d.unsigned_toFloat
  all_goals
    cases hy
    rfl

end Pseudocode.Decimal
