import Pseudocode.Proofs.Decimal.Numeral

/-! # Integers written and read

The digits of a number are any digits that stand for it, without the zeros in front. An integer is read off its
digits, and a minus sign in front of a text changes the sign of the integer that is read off it.
-/

namespace Pseudocode.Decimal

variable {c : Char} {cs : List Char} {n : Nat} {i : Int}

/-! ## Digits -/

theorem exists_digitChar (h : c.isDigit) : ∃ d < 10, c = Nat.digitChar d := by
  obtain ⟨hl, hu⟩ := Char.isDigit_iff_toNat.mp h
  have hl : 48 ≤ c.toNat := hl
  have hu : c.toNat ≤ 57 := hu
  refine ⟨c.toNat - 48, by omega, ?_⟩
  apply Char.toNat_inj.mp
  rw [Nat.toNat_digitChar_of_lt_ten (by omega)]
  omega

theorem toDigits_ofDigitChars (h : ∀ c ∈ cs, c.isDigit) (hn : 0 < n) :
    Nat.toDigits 10 (Nat.ofDigitChars 10 cs n) = Nat.toDigits 10 n ++ cs := by
  induction cs generalizing n with
  | nil => simp
  | cons c cs ih =>
    obtain ⟨hc, hcs⟩ := List.forall_mem_cons.mp h
    obtain ⟨d, hd, rfl⟩ := exists_digitChar hc
    calc Nat.toDigits 10 (Nat.ofDigitChars 10 (d.digitChar :: cs) n)
        = Nat.toDigits 10 (Nat.ofDigitChars 10 cs (10 * n + d)) := by
          rw [Nat.ofDigitChars_cons_digitChar_of_lt_ten hd]
      _ = Nat.toDigits 10 (10 * n + d) ++ cs := ih hcs (by omega)
      _ = Nat.toDigits 10 n ++ Nat.toDigits 10 d ++ cs := by
          rw [Nat.toDigits_append_toDigits (by decide) hn hd]
      _ = Nat.toDigits 10 n ++ d.digitChar :: cs := by
          rw [Nat.toDigits_of_lt_base hd, List.append_assoc, List.singleton_append]

/-- The digits of a number are the digits that stand for it, without the zeros in front. -/
theorem toDigits_digitsValue (h : ∀ c ∈ cs, c.isDigit) (hpos : 0 < digitsValue cs) :
    Nat.toDigits 10 (digitsValue cs) = cs.dropWhile (· == '0') := by
  change Nat.toDigits 10 (Nat.ofDigitChars 10 cs 0) = _
  induction cs with
  | nil => exact absurd hpos (lt_irrefl 0)
  | cons c cs ih =>
    obtain ⟨hc, hcs⟩ := List.forall_mem_cons.mp h
    obtain ⟨d, hd, rfl⟩ := exists_digitChar hc
    have hcons : Nat.ofDigitChars 10 (d.digitChar :: cs) 0 = Nat.ofDigitChars 10 cs d := by
      rw [Nat.ofDigitChars_cons_digitChar_of_lt_ten hd, Nat.mul_zero, Nat.zero_add]
    have hpos : 0 < Nat.ofDigitChars 10 (d.digitChar :: cs) 0 := hpos
    rw [hcons] at hpos ⊢
    rcases Nat.eq_zero_or_pos d with rfl | hd0
    · exact ih hcs hpos
    · have hne : ¬ (d.digitChar == '0') = true := by
        rw [beq_iff_eq, Nat.digitChar_eq_zero]
        exact hd0.ne'
      calc Nat.toDigits 10 (Nat.ofDigitChars 10 cs d)
          = [d.digitChar] ++ cs := by rw [toDigits_ofDigitChars hcs hd0, Nat.toDigits_of_lt_base hd]
        _ = (d.digitChar :: cs).dropWhile (· == '0') := by
          rw [List.singleton_append, List.dropWhile_cons, if_neg hne]

/-! ## Signs -/

def Signless (cs : List Char) : Prop :=
  ∀ c ∈ cs.head?, c ≠ '-' ∧ c ≠ '+'

theorem Signless.splitSign (h : Signless cs) : splitSign cs = (false, cs) := by
  unfold Decimal.splitSign
  split
  case h_1 => exact absurd rfl (h '-' rfl).1
  case h_2 => exact absurd rfl (h '+' rfl).2
  case h_3 => rfl

theorem signless_of_isDigit (h : ∀ c ∈ cs, c.isDigit) : Signless cs := by
  intro c hc
  have hdigit := h c (List.mem_of_mem_head? hc)
  constructor <;> rintro rfl <;> cases hdigit

theorem parseInt?_of_isDigit (hne : cs ≠ []) (h : ∀ c ∈ cs, c.isDigit) :
    parseInt? cs = some (digitsValue cs : Int) := by
  have hall : cs.all Char.isDigit := List.all_eq_true.mpr h
  simp [parseInt?, (signless_of_isDigit h).splitSign, hne, hall]

theorem isDigit_of_parseInt? (hsign : Signless cs) (h : parseInt? cs = some i) :
    cs ≠ [] ∧ (∀ c ∈ cs, c.isDigit) ∧ i = digitsValue cs := by
  simp only [parseInt?, hsign.splitSign] at h
  split at h
  case isTrue => cases h
  case isFalse hdigits =>
    obtain ⟨hne, hall⟩ := not_or.mp (mt Bool.or_eq_true_iff.mpr hdigits)
    exact ⟨by simpa using hne, by simpa using hall, (Option.some.inj h).symm⟩

theorem isDigit_or_of_parseInt? (h : parseInt? cs = some i) :
    ∀ c ∈ cs, c.isDigit ∨ c = '-' ∨ c = '+' := by
  intro c hc
  have hmem : c ∈ (splitSign cs).2 ∨ c = '-' ∨ c = '+' := by
    unfold splitSign
    split
    case h_1 => exact (List.mem_cons.mp hc).elim (fun heq => .inr (.inl heq)) .inl
    case h_2 => exact (List.mem_cons.mp hc).elim (fun heq => .inr (.inr heq)) .inl
    case h_3 => exact .inl hc
  simp only [parseInt?] at h
  split at h
  case isTrue => cases h
  case isFalse hdigits =>
    have hall : (splitSign cs).2.all Char.isDigit := by simpa using (not_or.mp (mt Bool.or_eq_true_iff.mpr hdigits)).2
    exact hmem.imp_left (List.all_eq_true.mp hall c)

theorem parseInt?_minus (hsign : Signless cs) : parseInt? ('-' :: cs) = (parseInt? cs).map (- ·) := by
  have hminus : splitSign ('-' :: cs) = (true, cs) := rfl
  simp only [parseInt?, hsign.splitSign, hminus]
  split
  case isTrue => rfl
  case isFalse => simp

theorem parseInt?_toString (i : Int) : parseInt? (toString i).toList = some i := by
  have hread (n : Nat) : parseInt? (Nat.toDigits 10 n) = some (n : Int) := by
    rw [parseInt?_of_isDigit Nat.toDigits_ne_nil fun _ => isDigit_of_mem_toDigits,
      digitsValue_toDigits]
  cases i with
  | ofNat n =>
    have htext : (toString (Int.ofNat n)).toList = Nat.toDigits 10 n := Nat.toList_repr
    rw [htext, hread]
    rfl
  | negSucc n =>
    have htext : (toString (Int.negSucc n)).toList = '-' :: Nat.toDigits 10 (n + 1) := by
      rw [← Nat.toList_repr]
      exact String.toList_append
    have hsign := signless_of_isDigit fun c (hc : c ∈ Nat.toDigits 10 (n + 1)) => isDigit_of_mem_toDigits hc
    rw [htext, parseInt?_minus hsign, hread]
    rfl

theorem parseInt64?_toString (n : Int64) : parseInt64? (toString n.toInt).toList = some n := by
  rw [parseInt64?, parseInt?_toString, Option.bind_some, int64?_eq_some_iff]

end Pseudocode.Decimal
