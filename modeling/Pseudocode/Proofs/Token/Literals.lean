import Pseudocode.Proofs.Decimal.Range
import Pseudocode.Proofs.Token.Relexing
import Pseudocode.Proofs.Token.Single

/-! # Decimal literals that are written again

The decimal that a literal is read as is written with all its digits, and it is read as the same one. Only a
literal beyond the range of doubles is read as infinity, and that is written as a word.
-/

namespace Pseudocode

variable {whole fraction : List Char} {d : Float} {t : Token}

namespace Decimal

def pointDigits (whole fraction : List Char) : Digits :=
  ⟨digitsValue (whole ++ fraction), -fraction.length⟩

theorem exists_denote_toFloat {ds : Digits} (h : ds.toRat < overflow) :
    ∃ q, denote ds.toFloat = .finite false q := by
  obtain ⟨negative, q, hq⟩ := isFinite_iff.mp (ds.ranged_toFloat.finite h)
  obtain rfl := Digits.not_negative_of_denote_toFloat hq
  exact ⟨q, hq⟩

end Decimal

open Decimal Lexer

theorem Lexer.Lexed.exists_numeral (h : Lexed t) (hk : ∀ c, Begins t.kind c → c.isDigit) :
    ∃ c cs, c.isDigit ∧ t.lexeme.toList = c :: cs ∧ Numeral c cs t.kind := by
  obtain ⟨c, cs, rest, hlexeme, -, -, hfront⟩ := h
  have hc : c.isDigit := hk c (begins_of_front hfront)
  rw [front, if_pos hc] at hfront
  exact ⟨c, cs, hc, hlexeme, numeral_of_number hfront⟩

theorem Lexer.Lexed.exists_pointed (h : Lexed t) (hd : t.kind = .decimal d) :
    ∃ whole fraction, Pointed whole fraction ∧ t.lexeme.toList = whole ++ '.' :: fraction ∧
      d = (pointDigits whole fraction).toFloat := by
  obtain ⟨c, cs, hc, hlexeme, hnumeral⟩ := h.exists_numeral (by rw [hd]; exact fun _ hc => hc)
  rw [hd] at hnumeral
  cases hnumeral with
  | @decimal ds fs _ hds hfs hne hparse =>
    have hpointed : Pointed (c :: ds) fs :=
      ⟨List.cons_ne_nil _ _, hne, List.forall_mem_cons.mpr ⟨hc, hds⟩, hfs⟩
    exact ⟨c :: ds, fs, hpointed, hlexeme, Option.some.inj (hparse.symm.trans hpointed.parseFloat?)⟩

namespace Token

variable {source : String} {ts : List Token}

theorem readsAs_pointed (h : Pointed whole fraction) :
    ReadsAs (.ofList (whole ++ '.' :: fraction)) (.decimal (pointDigits whole fraction).toFloat) := by
  refine readsAs_of_writes ?_
  rw [String.toList_ofList]
  exact writes_pointed h h.parseFloat?

theorem readsAs_render {q : Rat} (h : denote d = .finite false q) :
    ReadsAs (Layout.literal.render d) (.decimal d) :=
  readsAs_of_writes (writes_decimal h)

/-- Infinity is written as a word. -/
theorem readsAs_inf (h : denote d = .infinite false) :
    ReadsAs (Layout.literal.render d) (.identifier "inf") := by
  rw [Layout.render, h]
  exact readsAs_word (by decide)

/-- A decimal literal in the range of doubles is written as a literal that is read as the same decimal. One
beyond the range is written as an identifier. -/
theorem readsAs_literal (h : Token.ofSource source = .ok ts) (ht : t ∈ ts)
    (hd : t.kind = .decimal d) :
    ∃ whole fraction, Pointed whole fraction ∧ t.lexeme.toList = whole ++ '.' :: fraction ∧
      ((pointDigits whole fraction).toRat < overflow →
        ReadsAs (Layout.literal.render d) (.decimal d)) ∧
      (overflow ≤ (pointDigits whole fraction).toRat →
        ReadsAs (Layout.literal.render d) (.identifier "inf")) := by
  rcases lexed_of_ofSource h t ht with heof | hlexed
  · rw [heof] at hd
    cases hd
  · obtain ⟨whole, fraction, hpointed, hlexeme, rfl⟩ := hlexed.exists_pointed hd
    refine ⟨whole, fraction, hpointed, hlexeme, fun hlt => ?_, fun hle => ?_⟩
    · obtain ⟨q, hq⟩ := exists_denote_toFloat hlt
      exact readsAs_render hq
    · exact readsAs_inf ((pointDigits whole fraction).ranged_toFloat.infinite hle)

theorem readsAs_literal_half : ∃ t eof, Token.ofSource "1.5" = .ok [t, eof] ∧
    t.kind = .decimal (pointDigits ['1'] ['5']).toFloat ∧
    ∃ whole fraction, Pointed whole fraction ∧ t.lexeme.toList = whole ++ '.' :: fraction ∧
      ((pointDigits whole fraction).toRat < overflow →
        ReadsAs (Layout.literal.render (pointDigits ['1'] ['5']).toFloat)
          (.decimal (pointDigits ['1'] ['5']).toFloat)) ∧
      (overflow ≤ (pointDigits whole fraction).toRat →
        ReadsAs (Layout.literal.render (pointDigits ['1'] ['5']).toFloat) (.identifier "inf")) := by
  have hpointed : Pointed ['1'] ['5'] := ⟨List.cons_ne_nil _ _, List.cons_ne_nil _ _,
    List.forall_mem_singleton.mpr rfl, List.forall_mem_singleton.mpr rfl⟩
  have hsource : "1.5" = String.ofList (['1'] ++ '.' :: ['5']) := by decide
  obtain ⟨t, eof, h, hk, -⟩ := hsource ▸ readsAs_pointed hpointed
  exact ⟨t, eof, h, hk, readsAs_literal h List.mem_cons_self hk⟩

def largeLiteral : String :=
  .ofList ('1' :: .replicate 309 '0' ++ '.' :: ['0'])

theorem overflow_le_large : overflow ≤ (pointDigits ('1' :: .replicate 309 '0') ['0']).toRat := by
  have hdigits : digitsValue ('1' :: .replicate 309 '0' ++ ['0']) = 10 ^ 310 := by
    have hone : digitsValue ['1'] = 1 := rfl
    rw [List.cons_append, ← List.replicate_succ', ← List.singleton_append, digitsValue_append_zeros,
      hone, Nat.one_mul]
  have hexponent : -(['0'].length : Int) = 309 - (310 : Nat) := rfl
  have hpow : (2 : Rat) ^ (1024 : Int) ≤ 10 ^ (309 : Int) := by
    exact_mod_cast (by decide +kernel : 2 ^ 1024 ≤ 10 ^ 309)
  refine overflow_le.trans (hpow.trans_eq ?_)
  rw [pointDigits, Digits.toRat, hdigits, hexponent, zpow_sub₀ (by norm_num), Nat.cast_pow,
    zpow_natCast]
  exact (mul_div_cancel₀ _ (pow_ne_zero _ (by norm_num))).symm

/-- The large literal is read as a decimal that is written as a word. -/
theorem not_readsAs_literal : ∃ ts t d, Token.ofSource largeLiteral = .ok ts ∧ t ∈ ts ∧
    t.kind = .decimal d ∧ ¬ ReadsAs (Layout.literal.render d) (.decimal d) := by
  have hpointed : Pointed ('1' :: .replicate 309 '0') ['0'] := by
    refine ⟨List.cons_ne_nil _ _, List.cons_ne_nil _ _, ?_, List.forall_mem_singleton.mpr rfl⟩
    exact List.forall_mem_cons.mpr ⟨rfl, fun c hc => isDigit_of_mem_zeros hc⟩
  obtain ⟨t, eof, h, hk, -⟩ := readsAs_pointed hpointed
  refine ⟨[t, eof], t, _, h, List.mem_cons_self, hk, fun hread => ?_⟩
  have hinf := readsAs_inf ((Digits.ranged_toFloat _).infinite overflow_le_large)
  cases hread.unique hinf

end Token
end Pseudocode
