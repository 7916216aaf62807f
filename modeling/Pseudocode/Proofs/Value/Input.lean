import Pseudocode.Proofs.Decimal.Integers
import Pseudocode.Proofs.Decimal.Negation
import Pseudocode.Value.Input

/-! # Values shown and typed in again

A truth value or a number is shown as a text that is read as the same value when it is typed in, with or without
white space around it. Whatever is typed in is such a value, or it is kept as the text that it is.
-/

namespace Pseudocode

/-! ## White space around a text -/

namespace Text

variable {c : Char} {p q s : String}

theorem trim_pad (hp : ∀ c ∈ p.toList, isWhiteSpace c) (hq : ∀ c ∈ q.toList, isWhiteSpace c)
    (h : ∀ c ∈ s.toList, ¬ isWhiteSpace c) : trim (p ++ s ++ q) = s := by
  have hkeep {cs : List Char} (hcs : ∀ c ∈ cs, ¬ isWhiteSpace c) (rest : List Char) (hne : cs ≠ []) :
      (cs ++ rest).dropWhile isWhiteSpace = cs ++ rest := by
    obtain ⟨c, cs, rfl⟩ := List.exists_cons_of_ne_nil hne
    exact List.dropWhile_cons_of_neg (hcs c List.mem_cons_self)
  rw [trim, String.toList_append, String.toList_append, List.append_assoc, List.dropWhile_append_of_pos hp]
  rcases eq_or_ne s.toList [] with hs | hs
  · rw [hs, List.nil_append, List.dropWhile_eq_nil_iff.mpr hq, ← String.toList_inj, hs]
    rfl
  · have hback : (s.toList ++ q.toList).reverse.dropWhile isWhiteSpace = s.toList.reverse := by
      rw [List.reverse_append, List.dropWhile_append_of_pos fun c hc => hq c (List.mem_reverse.mp hc),
        ← List.append_nil s.toList.reverse]
      exact hkeep (fun c hc => h c (List.mem_reverse.mp hc)) [] (mt List.reverse_eq_nil_iff.mp hs)
    rw [hkeep h q.toList hs, hback, List.reverse_reverse, String.ofList_toList]

theorem trim_eq_self (h : ∀ c ∈ s.toList, ¬ isWhiteSpace c) : trim s = s := by
  have hpad : trim ("" ++ s ++ "") = s := trim_pad nofun nofun h
  rwa [String.empty_append, String.append_empty] at hpad

theorem not_isWhiteSpace_of_isDigit (h : c.isDigit) : ¬ isWhiteSpace c := by
  obtain ⟨d, hd, rfl⟩ := Decimal.exists_digitChar h
  exact (by decide : ∀ d < 10, ¬ isWhiteSpace (Nat.digitChar d)) d hd

end Text

/-! ## Decimals -/

namespace Decimal

variable {cs whole fraction : List Char} {x : Float} {q : Rat} {negative : Bool}

theorem parseFloat?_minus (hsign : Signless cs) : parseFloat? ('-' :: cs) = (parseFloat? cs).map (- ·) := by
  have hminus : splitSign ('-' :: cs) = (true, cs) := rfl
  simp only [parseFloat?, hsign.splitSign, hminus, Option.map_map]
  rfl

theorem parseInt?_of_mem (h : '.' ∈ cs) : parseInt? cs = none := by
  cases hread : parseInt? cs with
  | none => rfl
  | some i => rcases isDigit_or_of_parseInt? hread '.' h with hc | hc | hc <;> cases hc

namespace Pointed

theorem exists_cons (h : Pointed whole fraction) :
    ∃ c cs, c.isDigit ∧ whole ++ '.' :: fraction = c :: cs := by
  obtain ⟨c, cs, rfl⟩ := List.exists_cons_of_ne_nil h.whole_ne_nil
  exact ⟨c, cs ++ '.' :: fraction, h.isDigit_of_mem_whole c List.mem_cons_self, rfl⟩

theorem signless (h : Pointed whole fraction) : Signless (whole ++ '.' :: fraction) := by
  obtain ⟨c, cs, hc, heq⟩ := h.exists_cons
  rintro d hd
  rw [heq] at hd
  cases hd
  constructor <;> rintro rfl <;> cases hc

theorem isDigit_or (h : Pointed whole fraction) : ∀ c ∈ whole ++ '.' :: fraction, c.isDigit ∨ c = '.' := by
  intro c hc
  rcases List.mem_append.mp hc with hc | hc
  · exact .inl (h.isDigit_of_mem_whole c hc)
  · exact (List.mem_cons.mp hc).symm.imp_left (h.isDigit_of_mem_fraction c)

end Pointed

theorem exists_render (h : denote x = .finite negative q) :
    ∃ whole fraction, Pointed whole fraction ∧
      (Layout.literal.render x).toList = (if negative then ['-'] else []) ++ (whole ++ '.' :: fraction) ∧
      parseFloat? (Layout.literal.render x).toList = some x := by
  cases negative with
  | false =>
    obtain ⟨whole, fraction, hpointed, htext, hvalue⟩ := render_literal h
    refine ⟨whole, fraction, hpointed, ?_, ?_⟩ <;> rw [htext, String.toList_ofList]
    · rfl
    · exact hvalue
  | true =>
    obtain ⟨whole, fraction, hpointed, htext, hvalue⟩ := render_literal (denote_neg h)
    refine ⟨whole, fraction, hpointed, ?_, ?_⟩ <;>
      rw [Layout.literal.toList_render_negative h, htext, String.toList_ofList]
    · rfl
    · rw [parseFloat?_minus hpointed.signless, hvalue, Option.map_some, neg_neg_float x]

end Decimal

namespace Value

open Decimal

variable {raw : String} {cs : List Char} {v : Value} {x : Float} {q : Rat} {negative : Bool}

/-! ## Numbers -/

theorem parseNumber?_of_parseInt64? {n : Int64} (h : parseInt64? cs = some n) :
    parseNumber? cs = some (.integer n) := by
  rw [parseNumber?, h]

theorem parseNumber?_of_parseDecimal? (hint : parseInt? cs = none) (h : parseDecimal? cs = some x) :
    parseNumber? cs = some (.decimal x) := by
  rw [parseNumber?, parseInt64?, hint, Option.bind_none, h, Option.map_some]

theorem parseDecimal?_eq_some_iff :
    parseDecimal? cs = some x ↔ looksNumeric cs ∧ parseFloat? cs = some x ∧ isFinite x := by
  unfold parseDecimal?
  split
  case isTrue hlooks => simp [hlooks, Option.filter_eq_some_iff]
  case isFalse hlooks => simp [hlooks]

theorem looksNumeric_cons {c : Char} (hc : c.isDigit) : looksNumeric (c :: cs) := by
  simp [looksNumeric, hc]

theorem looksNumeric_minus (cs : List Char) : looksNumeric ('-' :: cs) = cs.any Char.isDigit := by
  simp [looksNumeric, List.any_cons]

/-- A finite decimal is read off the text that it is shown as. -/
theorem parseNumber?_render (h : denote x = .finite negative q) :
    parseNumber? (Layout.literal.render x).toList = some (.decimal x) := by
  obtain ⟨whole, fraction, hpointed, htext, hvalue⟩ := exists_render h
  obtain ⟨c, cs, hc, hcons⟩ := hpointed.exists_cons
  have hfinite : isFinite x := isFinite_iff.mpr ⟨negative, q, h⟩
  apply parseNumber?_of_parseDecimal?
  · apply parseInt?_of_mem
    rw [htext]
    exact List.mem_append_right _ (List.mem_append_right _ List.mem_cons_self)
  · refine parseDecimal?_eq_some_iff.mpr ⟨?_, hvalue, hfinite⟩
    rw [htext, hcons]
    cases negative with
    | false => exact looksNumeric_cons hc
    | true => simp [looksNumeric, hc]

/-! ## Answers -/

/-- The value is a truth value or a number, and neither infinite nor NaN. -/
def Recognized : Value → Prop
  | .integer _ | .boolean _ => True
  | .decimal d => isFinite d
  | .text _ => False

theorem ofInput_of_parseNumber? (h : parseNumber? (Text.trim raw).toList = some v) : ofInput raw = v := by
  unfold ofInput
  split
  case h_1 heq =>
    rw [heq] at h
    cases h
  case h_2 heq =>
    rw [heq] at h
    cases h
  case h_3 => rw [h, Option.getD_some]

theorem recognized_of_parseNumber? (h : parseNumber? cs = some v) : v.Recognized := by
  unfold parseNumber? at h
  split at h
  case h_1 n hn =>
    cases h
    trivial
  case h_2 =>
    obtain ⟨x, hx, rfl⟩ := Option.map_eq_some_iff.mp h
    exact (parseDecimal?_eq_some_iff.mp hx).2.2

theorem text_or_recognized_ofInput (raw : String) : ofInput raw = .text raw ∨ (ofInput raw).Recognized := by
  unfold ofInput
  split
  case h_1 => exact .inr trivial
  case h_2 => exact .inr trivial
  case h_3 =>
    cases h : parseNumber? (Text.trim raw).toList with
    | none => exact .inl rfl
    | some v => exact .inr (recognized_of_parseNumber? h)

theorem not_isWhiteSpace_render (hv : v.Recognized) : ∀ c ∈ v.render.toList, ¬ Text.isWhiteSpace c := by
  have hminus : ¬ Text.isWhiteSpace '-' := by decide
  have hplus : ¬ Text.isWhiteSpace '+' := by decide
  have hpoint : ¬ Text.isWhiteSpace '.' := by decide
  cases v with
  | integer n =>
    intro c hc
    rcases isDigit_or_of_parseInt? (parseInt?_toString n.toInt) c hc with hdigit | rfl | rfl
    · exact Text.not_isWhiteSpace_of_isDigit hdigit
    · exact hminus
    · exact hplus
  | decimal x =>
    obtain ⟨negative, q, h⟩ := isFinite_iff.mp hv
    obtain ⟨whole, fraction, hpointed, htext, -⟩ := exists_render h
    intro c hc
    rw [render, htext] at hc
    rcases List.mem_append.mp hc with hc | hc
    · cases negative with
      | false => cases hc
      | true =>
        obtain rfl := List.mem_singleton.mp hc
        exact hminus
    · rcases hpointed.isDigit_or c hc with hdigit | rfl
      · exact Text.not_isWhiteSpace_of_isDigit hdigit
      · exact hpoint
  | boolean b =>
    have hall : (boolean b).render.toList.all (!Text.isWhiteSpace ·) := by cases b <;> decide
    simpa using hall
  | text s => cases hv

theorem ofInput_pad {p q : String} (hv : v.Recognized) (hp : ∀ c ∈ p.toList, Text.isWhiteSpace c)
    (hq : ∀ c ∈ q.toList, Text.isWhiteSpace c) : ofInput (p ++ v.render ++ q) = v := by
  have htrim : Text.trim (p ++ v.render ++ q) = v.render := Text.trim_pad hp hq (not_isWhiteSpace_render hv)
  cases v with
  | integer n =>
    apply ofInput_of_parseNumber?
    rw [htrim]
    exact parseNumber?_of_parseInt64? (parseInt64?_toString n)
  | decimal x =>
    obtain ⟨negative, q, h⟩ := isFinite_iff.mp hv
    apply ofInput_of_parseNumber?
    rw [htrim]
    exact parseNumber?_render h
  | boolean b =>
    unfold ofInput
    rw [htrim]
    cases b <;> rfl
  | text s => cases hv

/-- A truth value, an integer or a finite decimal is read again off the text that it is shown as, white space
around it aside. Every answer is read as such a value, or it is kept as it was given. -/
theorem ofInput_recognizes :
    (∀ v : Value, v.Recognized → ∀ p q : String, (∀ c ∈ p.toList, Text.isWhiteSpace c) →
      (∀ c ∈ q.toList, Text.isWhiteSpace c) → ofInput (p ++ v.render ++ q) = v) ∧
      ∀ raw, ofInput raw = .text raw ∨ (ofInput raw).Recognized :=
  ⟨fun _ hv _ _ hp hq => ofInput_pad hv hp hq, text_or_recognized_ofInput⟩

/-- A zero keeps its sign, and a line break counts as white space. -/
theorem ofInput_recognizes_zero :
    (decimal (-0)).Recognized ∧ (∀ c ∈ " \t".toList, Text.isWhiteSpace c) ∧
      (∀ c ∈ "\u3000\n".toList, Text.isWhiteSpace c) ∧ decimal (-0) ≠ decimal 0 ∧
      (decimal (-0)).render = "-0.0" ∧ ofInput (" \t" ++ (decimal (-0)).render ++ "\u3000\n") = decimal (-0) := by
  have hv : (decimal (-0)).Recognized := (by decide : isFinite (-0) = true)
  have hp : ∀ c ∈ " \t".toList, Text.isWhiteSpace c := List.all_eq_true.mp (by decide)
  have hq : ∀ c ∈ "\u3000\n".toList, Text.isWhiteSpace c := List.all_eq_true.mp (by decide)
  exact ⟨hv, hp, hq, by decide, by decide +kernel, ofInput_recognizes.1 _ hv _ _ hp hq⟩

end Value
end Pseudocode
