import Pseudocode.Decimal.Layout
import Pseudocode.Decimal.Numeral
import Pseudocode.Proofs.Decimal.Digits

/-! # Decimal literals

A double that is not negative is written as digits on both sides of a point, and they are read as
the same double.
-/

namespace Pseudocode.Decimal

/-- Digits on both sides of a point. -/
structure Pointed (whole fraction : List Char) : Prop where
  whole_ne_nil : whole ≠ []
  fraction_ne_nil : fraction ≠ []
  isDigit_of_mem_whole : ∀ c ∈ whole, c.isDigit
  isDigit_of_mem_fraction : ∀ c ∈ fraction, c.isDigit

variable {whole fraction : List Char} {x : Float} {q : Rat}

theorem int64?_eq_some_iff {n : Int} {i : Int64} : int64? n = some i ↔ i.toInt = n := by
  rw [int64?]
  constructor
  · intro h
    split at h
    case isTrue hrange =>
      rw [Int64.toInt_minValue, Int64.toInt_maxValue] at hrange
      rw [← Option.some.inj h, Int64.toInt_ofInt_of_le hrange.1 (by omega)]
    case isFalse => cases h
  · rintro rfl
    rw [if_pos ⟨i.minValue_le_toInt, i.toInt_le⟩, Int64.ofInt_toInt]

theorem digitsValue_toDigits (n : Nat) : digitsValue (Nat.toDigits 10 n) = n :=
  Nat.ofDigitChars_ten_toDigits

theorem digitsValue_append_zeros (cs : List Char) (n : Nat) :
    digitsValue (cs ++ .replicate n '0') = digitsValue cs * 10 ^ n := by
  have happend : digitsValue (cs ++ .replicate n '0') = 10 ^ n * digitsValue cs :=
    (Nat.ofDigitChars_append 0).trans Nat.ofDigitChars_replicate_zero
  rw [happend, Nat.mul_comm]

theorem digitsValue_zeros_append (cs : List Char) (n : Nat) :
    digitsValue (.replicate n '0' ++ cs) = digitsValue cs := by
  have happend : digitsValue (.replicate n '0' ++ cs) = Nat.ofDigitChars 10 cs (10 ^ n * 0) :=
    (Nat.ofDigitChars_append 0).trans (by rw [Nat.ofDigitChars_replicate_zero])
  exact happend

theorem isDigit_of_mem_toDigits {n : Nat} {c : Char} (h : c ∈ Nat.toDigits 10 n) : c.isDigit :=
  Nat.isDigit_of_mem_toDigits (by decide) (by decide) h

theorem isDigit_of_mem_zeros {n : Nat} {c : Char} (h : c ∈ List.replicate n '0') : c.isDigit := by
  rw [List.eq_of_mem_replicate h]
  rfl

theorem exists_pointed (d : Digits) :
    ∃ whole fraction, Pointed whole fraction ∧
      Layout.literal.positional d = whole ++ '.' :: fraction ∧
      (Digits.mk (digitsValue (whole ++ fraction)) (-fraction.length)).toRat = d.toRat := by
  have hvalue := digitsValue_toDigits d.coefficient
  have hdigits : ∀ c ∈ Nat.toDigits 10 d.coefficient, c.isDigit := fun _ => isDigit_of_mem_toDigits
  have hlength : 0 < (Nat.toDigits 10 d.coefficient).length := Nat.length_toDigits_pos
  simp only [Layout.positional]
  generalize Nat.toDigits 10 d.coefficient = digits at *
  by_cases he : 0 ≤ d.exponent
  · obtain ⟨k, hk⟩ := Int.eq_ofNat_of_zero_le he
    refine ⟨digits ++ .replicate k '0', ['0'], ⟨?_, ?_, ?_, ?_⟩, ?_, ?_⟩
    · exact List.append_ne_nil_of_left_ne_nil (List.ne_nil_of_length_pos hlength) _
    · exact List.cons_ne_nil _ _
    · exact fun c hc => (List.mem_append.1 hc).elim (hdigits c) isDigit_of_mem_zeros
    · exact fun c hc => isDigit_of_mem_zeros (n := 1) hc
    · rw [if_pos he, hk]
      rfl
    · have hzero : digitsValue (digits ++ .replicate k '0' ++ ['0']) =
          d.coefficient * 10 ^ (k + 1) := by
        rw [List.append_assoc, ← List.replicate_succ', digitsValue_append_zeros, hvalue]
      have hone : (['0'].length : Int) = 1 := rfl
      rw [hzero, hone, Digits.toRat, Digits.toRat, hk]
      push_cast
      rw [pow_succ, zpow_neg, zpow_one, zpow_natCast]
      field_simp
  · obtain ⟨k, hk⟩ : ∃ k : Nat, d.exponent = -k := ⟨(-d.exponent).toNat, by omega⟩
    rw [if_neg he, hk, neg_neg, Int.toNat_natCast]
    by_cases hp : k < digits.length
    · rw [if_pos hp]
      refine ⟨_, _, ⟨?_, ?_, ?_, ?_⟩, rfl, ?_⟩
      · exact List.ne_nil_of_length_pos (by rw [List.length_take]; omega)
      · exact List.ne_nil_of_length_pos (by rw [List.length_drop]; omega)
      · exact fun c hc => hdigits c (List.mem_of_mem_take hc)
      · exact fun c hc => hdigits c (List.mem_of_mem_drop hc)
      · rw [List.take_append_drop, hvalue, Digits.toRat, List.length_drop,
          Nat.sub_sub_self hp.le, Digits.toRat, hk]
    · rw [if_neg hp]
      refine ⟨['0'], .replicate (k - digits.length) '0' ++ digits, ⟨?_, ?_, ?_, ?_⟩, rfl, ?_⟩
      · exact List.cons_ne_nil _ _
      · exact List.append_ne_nil_of_right_ne_nil _ (List.ne_nil_of_length_pos hlength)
      · exact fun c hc => isDigit_of_mem_zeros (n := 1) hc
      · exact fun c hc => (List.mem_append.1 hc).elim isDigit_of_mem_zeros (hdigits c)
      · have hzero : digitsValue (['0'] ++ (.replicate (k - digits.length) '0' ++ digits)) =
            d.coefficient := by
          rw [← List.append_assoc, ← hvalue]
          exact digitsValue_zeros_append digits (k - digits.length + 1)
        have hlen : (List.replicate (k - digits.length) '0' ++ digits).length = k := by
          rw [List.length_append, List.length_replicate, Nat.sub_add_cancel (not_lt.1 hp)]
        rw [hzero, hlen, Digits.toRat, Digits.toRat, hk]

theorem splitSign_of_isDigit {c : Char} (hc : c.isDigit) (cs : List Char) :
    splitSign (c :: cs) = (false, c :: cs) := by
  unfold splitSign
  split
  case h_1 heq => cases heq; cases hc
  case h_2 heq => cases heq; cases hc
  case h_3 => rfl

theorem toLower_of_isDigit {c : Char} (h : c.isDigit) : c.toLower = c := by
  obtain ⟨-, hu⟩ := Char.isDigit_iff_toNat.mp h
  have hu : c.toNat ≤ 57 := hu
  unfold Char.toLower
  rw [dif_neg]
  rintro ⟨hupper, -⟩
  have hupper : 65 ≤ c.toNat := hupper
  omega

theorem parseMagnitude?_of_isDigit {c : Char} {cs : List Char} (hmem : c ∈ cs) (hc : c.isDigit) :
    parseMagnitude? cs = (parseDigits? cs).map Digits.toFloat := by
  have hword {s : String} (hs : s.toList.all (!Char.isDigit ·)) :
      String.ofList (cs.map Char.toLower) ≠ s := by
    rintro rfl
    rw [String.toList_ofList] at hs
    have hlower : c ∈ cs.map Char.toLower := List.mem_map.mpr ⟨c, hmem, toLower_of_isDigit hc⟩
    simpa [hc] using List.all_eq_true.mp hs c hlower
  unfold parseMagnitude?
  split
  case h_1 h => exact absurd h (hword (by decide))
  case h_2 h => exact absurd h (hword (by decide))
  case h_3 h => exact absurd h (hword (by decide))
  case h_4 => rfl

namespace Pointed

theorem takeWhile_whole (h : Pointed whole fraction) :
    (whole ++ '.' :: fraction).takeWhile Char.isDigit = whole := by
  rw [List.takeWhile_append_of_pos h.isDigit_of_mem_whole, List.takeWhile_cons_of_neg (by decide),
    List.append_nil]

theorem dropWhile_whole (h : Pointed whole fraction) :
    (whole ++ '.' :: fraction).dropWhile Char.isDigit = '.' :: fraction := by
  rw [List.dropWhile_append_of_pos h.isDigit_of_mem_whole, List.dropWhile_cons_of_neg (by decide)]

theorem parseDigits? (h : Pointed whole fraction) :
    parseDigits? (whole ++ '.' :: fraction) =
      some ⟨digitsValue (whole ++ fraction), -fraction.length⟩ := by
  have htake : fraction.takeWhile Char.isDigit = fraction :=
    List.takeWhile_eq_self_iff.2 h.isDigit_of_mem_fraction
  have hdrop : fraction.dropWhile Char.isDigit = [] :=
    List.dropWhile_eq_nil_iff.2 h.isDigit_of_mem_fraction
  have hne : whole.isEmpty = false := List.isEmpty_eq_false_iff.2 h.whole_ne_nil
  simp only [Decimal.parseDigits?, spanDigits, h.takeWhile_whole, h.dropWhile_whole, spanFraction,
    htake, hdrop, hne, parseExponent?, Option.map_some, zero_sub, Bool.false_and,
    Bool.false_eq_true, if_false]

theorem parseMagnitude? (h : Pointed whole fraction) :
    parseMagnitude? (whole ++ '.' :: fraction) =
      some (Digits.toFloat ⟨digitsValue (whole ++ fraction), -fraction.length⟩) := by
  obtain ⟨c, hc⟩ := List.exists_mem_of_ne_nil whole h.whole_ne_nil
  rw [parseMagnitude?_of_isDigit (List.mem_append_left _ hc) (h.isDigit_of_mem_whole c hc), h.parseDigits?,
    Option.map_some]

theorem parseFloat? (h : Pointed whole fraction) :
    parseFloat? (whole ++ '.' :: fraction) =
      some (Digits.toFloat ⟨digitsValue (whole ++ fraction), -fraction.length⟩) := by
  obtain ⟨c, cs, rfl⟩ := List.exists_cons_of_ne_nil h.whole_ne_nil
  have hdigit : c.isDigit := h.isDigit_of_mem_whole c List.mem_cons_self
  rw [Decimal.parseFloat?, List.cons_append, splitSign_of_isDigit hdigit, ← List.cons_append]
  simp only [h.parseMagnitude?, Option.map_some, signed, Bool.false_eq_true, if_false]

end Pointed

theorem not_negative_of_parseFloat? {c : Char} {cs : List Char} (hc : c.isDigit)
    (h : parseFloat? (c :: cs) = some x) (hx : isFinite x) : ∃ q, denote x = .finite false q := by
  obtain ⟨negative, q, hq⟩ := isFinite_iff.mp hx
  refine ⟨q, ?_⟩
  suffices hn : negative = false by rw [hq, hn]
  rw [parseFloat?, splitSign_of_isDigit hc] at h
  obtain ⟨y, hy, hsigned⟩ := Option.map_eq_some_iff.1 h
  obtain rfl : y = x := hsigned
  unfold parseMagnitude? at hy
  split at hy
  case h_1 =>
    cases hy
    cases hq
  case h_2 =>
    cases hy
    cases hq
  case h_3 =>
    cases hy
    cases hq
  case h_4 =>
    obtain ⟨d, -, rfl⟩ := Option.map_eq_some_iff.1 hy
    exact Digits.not_negative_of_denote_toFloat hq

/-- A double that is not negative is written as a decimal literal, which is read as the same one. -/
theorem render_literal (h : denote x = .finite false q) :
    ∃ whole fraction, Pointed whole fraction ∧
      Layout.literal.render x = .ofList (whole ++ '.' :: fraction) ∧
      parseFloat? (whole ++ '.' :: fraction) = some x := by
  obtain ⟨hnearest, hlarge⟩ := shortest_spec .up h
  obtain ⟨whole, fraction, hpointed, htext, hvalue⟩ := exists_pointed (shortest .up q)
  refine ⟨whole, fraction, hpointed, ?_, ?_⟩
  · rw [Layout.render, h]
    exact congrArg String.ofList htext
  · have hexponent : -(fraction.length : Int) ≤ 400 := by omega
    rw [hpointed.parseFloat?, Digits.toFloat_eq_nearest hexponent (by rwa [hvalue]), hvalue,
      hnearest]

end Pseudocode.Decimal
