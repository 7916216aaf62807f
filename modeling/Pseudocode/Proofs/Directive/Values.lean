import Pseudocode.Proofs.Decimal.Negation
import Pseudocode.Proofs.Directive.Printing

/-! # The tokens of values

A number is printed as a minus sign and digits, a color as a word, and a font as a word or a text. From the
tokens of these the number, the color and the font are read back, but for the sign of a zero.
-/

namespace Pseudocode

def Token.ofLexeme (k : TokenKind) (lexeme : String) : Token :=
  ⟨k, lexeme, .first⟩

/-! ## Tokens put together -/

namespace Lexer

variable {c : Char} {cs : List Char} {k : TokenKind} {s : String}

theorem Numeral.lexed (hc : c.isDigit) (h : Numeral c cs k) :
    Lexed (.ofLexeme k (.ofList (c :: cs))) := by
  refine ⟨c, cs, [], String.toList_ofList, not_isBlank_of_isDigit hc, ?_, ?_⟩
  · have hne : c ≠ '#' := by
      rintro rfl
      cases hc
    simp [hne]
  · rw [front, if_pos hc, h.number (apart_of_boundary boundary_nil k)]
    rfl

theorem lexed_word (h : Text.isWord s.toList) (hs : Keyword.ofWord? s = none) :
    Lexed (.ofLexeme (.identifier s) s) := by
  obtain ⟨c, cs, hcs⟩ : ∃ c cs, s.toList = c :: cs := by
    cases hcs : s.toList with
    | nil => simp [hcs, Text.isWord] at h
    | cons c cs => exact ⟨c, cs, rfl⟩
  rw [hcs] at h
  obtain ⟨hc, hall⟩ := Bool.and_eq_true_iff.mp h
  have hlength : countWhile Text.isWordChar (cs ++ []) = cs.length :=
    countWhile_eq_length (List.all_eq_true.mp hall) (boundary_nil.not (by decide))
  refine ⟨c, cs, [], hcs, not_isBlank_of_isLetter hc, ?_, ?_⟩
  · simp [ne_of_isLetter hc (show Text.isLetter '#' = false by decide)]
  · rw [front_of_isLetter hc, word, hlength, List.take_left, ← hcs, String.ofList_toList, hs]
    rfl

theorem lexed_text (h : '\n' ∉ s.toList) : Lexed (.ofLexeme (.text s) (Text.quote s)) := by
  refine ⟨'"', Text.doubleQuotes s.toList ++ ['"'], [], String.toList_ofList, by decide, by simp, ?_⟩
  rw [List.append_assoc, front, if_neg (by decide), if_pos rfl, text, List.singleton_append,
    textBody_doubleQuotes h boundary_nil.ne_quote, List.length_append]
  simp only [String.ofList_toList, List.length_singleton]
  rfl

theorem lexed_minus : Lexed (.ofLexeme (.symbol .minus) "-") :=
  ⟨'-', [], [], rfl, by decide, by simp, rfl⟩

theorem lexed_comma : Lexed (.ofLexeme (.symbol .comma) ",") :=
  ⟨',', [], [], rfl, by decide, by simp, rfl⟩

end Lexer

/-! ## Numbers -/

namespace Decimal

variable {x : Float} {negative : Bool} {q : Rat}

theorem nonneg_of_denote (h : denote x = .finite negative q) : 0 ≤ q := by
  rw [denote] at h
  split at h
  case h_1 => cases h
  case h_2 => cases h
  case h_3 =>
    cases h
    exact le_rfl
  case h_4 m e hm _ =>
    cases h
    positivity

theorem ofInt_of_denote (h : denote x = .finite false q) (hq : q.den = 1) : ofInt q.num = x := by
  have hnum : (q.num : Rat) = q := by
    conv => rhs; rw [← Rat.num_div_den q, hq, Nat.cast_one, div_one]
  have hsign : ¬ q.num < 0 := not_lt.mpr (Rat.num_nonneg.mpr (nonneg_of_denote h))
  rw [ofInt, hnum, nearest_of_denote h, decide_eq_false hsign]
  rfl

end Decimal

namespace DirectiveValue

open Lexer WrittenValue Decimal

variable {x : Float} {q : Rat}

theorem exists_number (h : denote x = .finite false q) :
    ∃ t, Lexed t ∧ number? t.kind = some x ∧ t.lexeme.toList = (renderNumber x).toList := by
  rw [renderNumber, h]
  simp only [Bool.false_eq_true, if_false]
  split
  case isTrue hwhole =>
    obtain ⟨hden, hlt⟩ := hwhole
    obtain ⟨n, hn⟩ := Int.eq_ofNat_of_zero_le (Rat.num_nonneg.mpr (nonneg_of_denote h))
    have hq : (n : Rat) = q := by
      rw [← Rat.num_div_den q, hden, hn]
      simp
    have hn63 : n < 2 ^ 63 := by
      have hn15 : n < 1000000000000000 := by exact_mod_cast hq.trans_lt hlt
      omega
    obtain ⟨i, hi⟩ := Path.exists_int64? hn63
    obtain ⟨c, cs, hcs, hc, hnumeral⟩ := exists_numeral_toDigits (int64?_eq_some_iff.mp hi)
    refine ⟨_, hnumeral.lexed hc, ?_, ?_⟩
    · rw [Token.ofLexeme, number?, int64?_eq_some_iff.mp hi, ← hn, ofInt_of_denote h hden]
    · rw [Token.ofLexeme, String.toList_ofList, ← hcs, hn]
      exact Nat.toList_repr.symm
  case isFalse =>
    obtain ⟨whole, fraction, hpointed, htext, hvalue⟩ := render_literal h
    obtain ⟨c, cs, hcs, hc, hnumeral⟩ := exists_numeral_of_pointed hpointed hvalue
    refine ⟨_, hnumeral.lexed hc, rfl, ?_⟩
    rw [Token.ofLexeme, htext, hcs]

theorem renderNumber_negative (h : denote x = .finite true q) (hq : q ≠ 0) :
    (renderNumber x).toList = '-' :: (renderNumber (-x)).toList := by
  have hneg := denote_neg h
  simp only [renderNumber, h, hneg, if_true, Bool.not_true, Bool.false_eq_true, if_false]
  split
  case isTrue hwhole =>
    obtain ⟨n, hn⟩ := Int.eq_succ_of_zero_lt (Rat.num_pos.mpr ((nonneg_of_denote h).lt_of_ne' hq))
    rw [hn]
    exact String.toList_append
  case isFalse => exact Layout.literal.toList_render_negative h

/-- A zero is printed without a sign. -/
theorem renderNumber_zero {negative : Bool} (h : denote x = .finite negative 0) :
    renderNumber x = renderNumber 0 := by
  rw [renderNumber, renderNumber, h, denote_zero]
  cases negative <;> rfl

/-- The number `y` is `x` without the sign that a zero may have. -/
def Unsigns (x y : Float) : Prop :=
  y = x ∨ x = -0 ∧ y = 0

theorem Unsigns.beq {y : Float} (h : Unsigns x y) (hx : isFinite x) : (y == x) = true := by
  rcases h with rfl | ⟨rfl, rfl⟩
  · obtain ⟨negative, q, hd⟩ := isFinite_iff.mp hx
    exact beq_self_of_denote hd
  · decide

theorem Unsigns.pos {y : Float} (h : Unsigns x y) (hx : 0 < x) : 0 < y := by
  rcases h with rfl | ⟨rfl, rfl⟩
  · exact hx
  · exact absurd hx (by decide)

/-- The tokens that a finite number is printed as are the number, but for the sign of a zero. -/
theorem exists_signed (h : isFinite x) : ∃ us y, Signed us y ∧ (∀ t ∈ us, Lexed t) ∧
    us.flatMap (·.lexeme.toList) = (renderNumber x).toList ∧ Unsigns x y := by
  obtain ⟨negative, q, hd⟩ := isFinite_iff.mp h
  cases negative with
  | false =>
    obtain ⟨t, ht, hnumber, htext⟩ := exists_number hd
    exact ⟨[t], x, .plain hnumber, by simpa using ht, by simpa using htext, .inl rfl⟩
  | true =>
    have hneg := denote_neg hd
    have hx := neg_neg_float x
    by_cases hq : q = 0
    · subst hq
      have hzero : -x = 0 := (nearest_of_denote hneg).symm.trans nearest_zero
      obtain ⟨t, ht, hnumber, htext⟩ := exists_number denote_zero
      refine ⟨[t], 0, .plain hnumber, by simpa using ht, ?_, .inr ⟨by rw [← hzero, hx], rfl⟩⟩
      simpa [renderNumber_zero hd] using htext
    · obtain ⟨t, ht, hnumber, htext⟩ := exists_number hneg
      refine ⟨[.ofLexeme (.symbol .minus) "-", t], - -x, .minus rfl hnumber, ?_, ?_, .inl hx⟩
      · simpa using ⟨lexed_minus, ht⟩
      · rw [renderNumber_negative hd hq, ← htext]
        simp [Token.ofLexeme]

theorem exists_more {xs : List Float} (h : ∀ x ∈ xs, isFinite x) :
    ∃ us ys, More us ys ∧ (∀ t ∈ us, Lexed t) ∧
      us.flatMap (·.lexeme.toList) = xs.flatMap (fun x => ',' :: (renderNumber x).toList) ∧
      List.Forall₂ Unsigns xs ys := by
  induction xs with
  | nil => exact ⟨[], [], .nil, nofun, rfl, .nil⟩
  | cons x xs ih =>
    rw [List.forall_mem_cons] at h
    obtain ⟨us, y, hsigned, hlexed, htext, hy⟩ := exists_signed h.1
    obtain ⟨vs, ys, hmore, hlexed', htext', hys⟩ := ih h.2
    refine ⟨.ofLexeme (.symbol .comma) "," :: (us ++ vs), y :: ys, .cons rfl hsigned hmore, ?_, ?_,
      .cons hy hys⟩
    · rw [List.forall_mem_cons, List.forall_mem_append]
      exact ⟨lexed_comma, hlexed, hlexed'⟩
    · rw [List.flatMap_cons, List.flatMap_append, List.flatMap_cons, htext, htext']
      rfl

end DirectiveValue

/-! ## Values -/

namespace Directive

open Lexer WrittenValue DirectiveValue

variable {s text : String} {x : Float} {xs : List Float}

theorem isPlainWord_iff : isPlainWord s ↔ Text.isWord s.toList ∧ Keyword.ofWord? s = none := by
  simp [isPlainWord]

theorem spellsValue_word (h : isPlainWord s) :
    SpellsValue s [.ofLexeme (.identifier s) s] (.word s) := by
  obtain ⟨hword, hnone⟩ := isPlainWord_iff.mp h
  exact ⟨by simpa using lexed_word hword hnone, .word rfl, .singleton _, by simp [lexemes, Token.ofLexeme]⟩

theorem spellsValue_text (h : '\n' ∉ s.toList) :
    SpellsValue (Text.quote s) [.ofLexeme (.text s) (Text.quote s)] (.text s) :=
  ⟨by simpa using lexed_text h, .text rfl, .singleton _, by simp [lexemes, Token.ofLexeme]⟩

theorem exists_spellsValue_numbers (h : ∀ y ∈ x :: xs, Decimal.isFinite y)
    (htext : text.toList =
      (renderNumber x).toList ++ xs.flatMap (fun x => ',' :: (renderNumber x).toList)) :
    ∃ us y ys, SpellsValue text us (.numbers (y :: ys)) ∧ List.Forall₂ Unsigns (x :: xs) (y :: ys) := by
  rw [List.forall_mem_cons] at h
  obtain ⟨us, y, hsigned, hlexed, hus, hy⟩ := exists_signed h.1
  obtain ⟨vs, ys, hmore, hlexed', hvs, hys⟩ := DirectiveValue.exists_more h.2
  refine ⟨us ++ vs, y, ys, ⟨?_, .numbers hsigned hmore, hsigned.chain_append hmore, ?_⟩, .cons hy hys⟩
  · exact List.forall_mem_append.mpr ⟨hlexed, hlexed'⟩
  · rw [← String.toList_inj, toList_lexemes, List.flatMap_append, hus, hvs, htext]

end Directive
end Pseudocode
