import Pseudocode.Proofs.Decimal.Range
import Pseudocode.Proofs.Expr.Integers
import Pseudocode.Proofs.Value.Input

/-! # Signs typed in

A minus sign in front of an answer does not decide whether the answer is a number, and it makes the opposite
number of it. Only a text that begins with a point needs a sign to be a number.
-/

namespace Pseudocode

/-! ## White space behind a text -/

namespace Text

variable {c : Char} {cs : List Char} {s : String}

/-- The text begins with neither white space nor a sign. -/
def Bare (s : String) : Prop :=
  ∀ c ∈ s.toList.head?, ¬ isWhiteSpace c ∧ c ≠ '-' ∧ c ≠ '+'

instance : DecidablePred Bare :=
  fun s => Option.decidableForallMem s.toList.head?

theorem rdropWhile_cons_of_neg (hc : ¬ isWhiteSpace c) :
    (c :: cs).rdropWhile isWhiteSpace = c :: cs.rdropWhile isWhiteSpace := by
  induction cs using List.reverseRecOn with
  | nil => exact List.rdropWhile_concat_neg isWhiteSpace [] c hc
  | append_singleton cs d ih =>
    rw [← List.cons_append, List.rdropWhile_concat, List.rdropWhile_concat, ih]
    split <;> rfl

theorem toList_trim (h : ∀ c ∈ s.toList.head?, ¬ isWhiteSpace c) :
    (trim s).toList = s.toList.rdropWhile isWhiteSpace := by
  have hfront : s.toList.dropWhile isWhiteSpace = s.toList := by
    cases hs : s.toList with
    | nil => rfl
    | cons c cs => exact List.dropWhile_cons_of_neg (h c (by rw [hs]; rfl))
  rw [trim, String.toList_ofList, hfront]
  rfl

theorem toList_trim_minus (h : Bare s) : (trim ("-" ++ s)).toList = '-' :: (trim s).toList := by
  have htext : ("-" ++ s).toList = '-' :: s.toList := String.toList_append
  have hminus : ¬ isWhiteSpace '-' := by decide
  have hfront : ∀ c ∈ ("-" ++ s).toList.head?, ¬ isWhiteSpace c := by
    rw [htext]
    rintro c ⟨⟩
    exact hminus
  rw [toList_trim hfront, toList_trim fun c hc => (h c hc).1, htext, rdropWhile_cons_of_neg hminus]

theorem head?_trim (h : Bare s) : (trim s).toList.head? = s.toList.head? := by
  rw [toList_trim fun c hc => (h c hc).1]
  cases hs : s.toList with
  | nil => rfl
  | cons c cs =>
    rw [rdropWhile_cons_of_neg (h c (by rw [hs]; rfl)).1]
    rfl

end Text

/-! ## Digits of decimals -/

namespace Decimal

variable {c : Char} {cs : List Char} {x : Float}

theorem parseDigits?_of_isDigit (hne : cs ≠ []) (h : ∀ c ∈ cs, c.isDigit) :
    parseDigits? cs = some ⟨digitsValue cs, 0⟩ := by
  have htake : cs.takeWhile Char.isDigit = cs := List.takeWhile_eq_self_iff.mpr h
  have hdrop : cs.dropWhile Char.isDigit = [] := List.dropWhile_eq_nil_iff.mpr h
  simp [parseDigits?, spanDigits, spanFraction, parseExponent?, htake, hdrop, hne]

theorem parseDigits?_eq_none (h : ∀ c ∈ cs.head?, ¬ c.isDigit ∧ c ≠ '.') : parseDigits? cs = none := by
  cases cs with
  | nil => rfl
  | cons c cs =>
    obtain ⟨hdigit, hpoint⟩ := h c rfl
    have hfraction : spanFraction (c :: cs) = ([], c :: cs) := by
      unfold spanFraction
      split
      case h_1 heq => exact absurd (List.cons.inj heq).1 hpoint
      case h_2 => rfl
    simp [parseDigits?, spanDigits, hdigit, hfraction]

theorem parseFloat?_of_isDigit (hsign : Signless cs) (hmem : c ∈ cs) (hc : c.isDigit) :
    parseFloat? cs = (parseDigits? cs).map Digits.toFloat := by
  simp only [parseFloat?, hsign.splitSign, parseMagnitude?_of_isDigit hmem hc, Option.map_map]
  rfl

theorem isDigit_or_of_parseFloat? (hsign : Signless cs) (hany : cs.any Char.isDigit)
    (h : parseFloat? cs = some x) : ∃ c ∈ cs.head?, c.isDigit ∨ c = '.' := by
  obtain ⟨c, hmem, hc⟩ := List.any_eq_true.mp hany
  by_contra hhead
  have hnone : parseDigits? cs = none := parseDigits?_eq_none fun d hd =>
    not_or.mp fun hor => hhead ⟨d, hd, hor⟩
  rw [parseFloat?_of_isDigit hsign hmem hc, hnone] at h
  cases h

end Decimal

namespace Value

open Decimal

variable {cs : List Char} {x : Float} {s : String} {i : Int}

/-! ## Opposite numbers -/

/-- A minus sign in front changes the sign of a decimal that does not begin with a point. -/
theorem parseDecimal?_minus (hsign : Signless cs) (hpoint : cs.head? ≠ some '.') :
    parseDecimal? ('-' :: cs) = (parseDecimal? cs).map (- ·) := by
  ext x
  rw [Option.map_eq_some_iff, parseDecimal?_eq_some_iff, parseFloat?_minus hsign, Option.map_eq_some_iff,
    looksNumeric_minus]
  constructor
  · rintro ⟨hany, ⟨y, hy, rfl⟩, hfinite⟩
    obtain ⟨c, hc, hdigit | rfl⟩ := isDigit_or_of_parseFloat? hsign hany hy
    · obtain ⟨rest, rfl⟩ := List.head?_eq_some_iff.mp hc
      rw [isFinite_neg] at hfinite
      exact ⟨y, parseDecimal?_eq_some_iff.mpr ⟨looksNumeric_cons hdigit, hy, hfinite⟩, rfl⟩
    · exact absurd hc hpoint
  · rintro ⟨y, hy, rfl⟩
    obtain ⟨hlooks, hread, hfinite⟩ := parseDecimal?_eq_some_iff.mp hy
    exact ⟨(Bool.and_eq_true_iff.mp hlooks).2, ⟨y, hread, rfl⟩, by rwa [isFinite_neg]⟩

theorem exists_parseDecimal? (hne : cs ≠ []) (h : ∀ c ∈ cs, c.isDigit)
    (hlt : (digitsValue cs : Rat) < overflow) : ∃ x, parseDecimal? cs = some x := by
  obtain ⟨c, rest, rfl⟩ := List.exists_cons_of_ne_nil hne
  have hc : c.isDigit := h c List.mem_cons_self
  have hvalue : (Digits.mk (digitsValue (c :: rest)) 0).toRat = digitsValue (c :: rest) := by
    rw [Digits.toRat, zpow_zero, mul_one]
  have hread : parseFloat? (c :: rest) = some (Digits.toFloat ⟨digitsValue (c :: rest), 0⟩) := by
    rw [parseFloat?_of_isDigit (signless_of_isDigit h) List.mem_cons_self hc, parseDigits?_of_isDigit hne h,
      Option.map_some]
  have hfinite : isFinite (Digits.toFloat ⟨digitsValue (c :: rest), 0⟩) := by
    apply (Digits.ranged_toFloat _).finite
    rwa [hvalue]
  exact ⟨_, parseDecimal?_eq_some_iff.mpr ⟨looksNumeric_cons hc, hread, hfinite⟩⟩

/-- What is read off a text, and what is read off it with a minus sign in front: nothing, or opposite numbers
of one type. The least integer has its opposite among the decimals. -/
inductive Opposite : Option Value → Option Value → Prop where
  | none : Opposite none none
  | integer {n m : Int64} : m.toInt = -n.toInt → Opposite (some (.integer n)) (some (.integer m))
  | decimal (x : Float) : Opposite (some (.decimal x)) (some (.decimal (-x)))
  | least (x : Float) : Opposite (some (.decimal x)) (some (.integer Int64.minValue))

theorem opposite_parseDecimal? (hsign : Signless cs) (hpoint : cs.head? ≠ some '.') :
    Opposite ((parseDecimal? cs).map .decimal) ((parseDecimal? ('-' :: cs)).map .decimal) := by
  rw [parseDecimal?_minus hsign hpoint]
  cases parseDecimal? cs with
  | none => exact .none
  | some x => exact .decimal x

theorem opposite_parseNumber? (hsign : Signless cs) (hpoint : cs.head? ≠ some '.') :
    Opposite (parseNumber? cs) (parseNumber? ('-' :: cs)) := by
  have hdecimal := opposite_parseDecimal? hsign hpoint
  simp only [parseNumber?, parseInt64?, parseInt?_minus hsign]
  cases hread : parseInt? cs with
  | none => exact hdecimal
  | some i =>
    obtain ⟨hne, hdigits, rfl⟩ := isDigit_of_parseInt? hsign hread
    simp only [Option.map_some, Option.bind_some]
    -- the magnitudes that fit are the same for both signs, but for that of the least integer
    rcases lt_trichotomy (digitsValue cs : Int) (2 ^ 63) with hlt | heq | hgt
    · have hpos : Fits (digitsValue cs) := ⟨by omega, hlt⟩
      have hneg : Fits (-digitsValue cs) := ⟨by omega, by omega⟩
      rw [hpos.int64?, hneg.int64?]
      apply Opposite.integer
      rw [hpos.toInt_ofInt, hneg.toInt_ofInt]
    · have hrange : (digitsValue cs : Rat) < overflow := by
        have hvalue : digitsValue cs = 2 ^ 63 := by exact_mod_cast heq
        rw [hvalue, Nat.cast_pow, Nat.cast_two, ← zpow_natCast]
        exact (zpow_lt_zpow_right₀ one_lt_two (by decide)).trans_le two_pow_le_overflow
      obtain ⟨x, hx⟩ := exists_parseDecimal? hne hdigits hrange
      have hleast : int64? (-2 ^ 63) = some Int64.minValue := by decide
      rw [heq, int64?_eq_none (by decide), hleast, hx]
      exact .least x
    · rw [int64?_eq_none fun h => absurd h.2 (by omega), int64?_eq_none fun h => absurd h.1 (by omega)]
      exact hdecimal

theorem parseNumber?_point (h : cs.head? = some '.') : parseNumber? cs = none := by
  obtain ⟨rest, rfl⟩ := List.head?_eq_some_iff.mp h
  have hint : parseInt64? ('.' :: rest) = none := by
    rw [parseInt64?, parseInt?_of_mem List.mem_cons_self, Option.bind_none]
  rw [parseNumber?, hint]
  rfl

/-! ## Answers -/

def IsNumber : Value → Prop
  | .integer _ | .decimal _ => True
  | .boolean _ | .text _ => False

instance : DecidablePred IsNumber
  | .integer _ | .decimal _ => isTrue trivial
  | .boolean _ | .text _ => isFalse id

theorem isNumber_of_parseNumber? {v : Value} (h : parseNumber? cs = some v) : v.IsNumber := by
  unfold parseNumber? at h
  split at h
  case h_1 =>
    cases h
    trivial
  case h_2 =>
    obtain ⟨x, -, rfl⟩ := Option.map_eq_some_iff.mp h
    trivial

theorem isNumber_ofInput_iff : (ofInput s).IsNumber ↔ parseNumber? (Text.trim s).toList = some (ofInput s) := by
  constructor
  · intro hnumber
    unfold ofInput at hnumber ⊢
    split at hnumber
    case h_1 => cases hnumber
    case h_2 => cases hnumber
    case h_3 =>
      cases hread : parseNumber? (Text.trim s).toList with
      | none =>
        rw [hread] at hnumber
        cases hnumber
      | some v => rfl
  · exact isNumber_of_parseNumber?

theorem not_isNumber_ofInput (h : parseNumber? (Text.trim s).toList = none) : ¬ (ofInput s).IsNumber := by
  intro hnumber
  rw [isNumber_ofInput_iff, h] at hnumber
  cases hnumber

/-- Answers that opposite numbers are read off are numbers together, and if they have one type the second is
the negation of the first. -/
theorem Opposite.ofInput {t : String}
    (h : Opposite (parseNumber? (Text.trim s).toList) (parseNumber? (Text.trim t).toList)) :
    ((ofInput s).IsNumber ↔ (ofInput t).IsNumber) ∧
      ((ofInput s).IsNumber → (ofInput s).type = (ofInput t).type →
        evalUnary .negate (ofInput s) = .ok (ofInput t)) := by
  generalize hs : parseNumber? (Text.trim s).toList = o, ht : parseNumber? (Text.trim t).toList = o' at h
  cases h with
  | none =>
    have hs := not_isNumber_ofInput hs
    exact ⟨iff_of_false hs (not_isNumber_ofInput ht), fun hnumber => absurd hnumber hs⟩
  | integer hopposite =>
    rw [ofInput_of_parseNumber? hs, ofInput_of_parseNumber? ht]
    constructor
    · exact iff_of_true trivial trivial
    · intro _ _
      rw [evalUnary, int64?_eq_some_iff.mpr hopposite]
  | decimal x =>
    rw [ofInput_of_parseNumber? hs, ofInput_of_parseNumber? ht]
    exact ⟨iff_of_true trivial trivial, fun _ _ => rfl⟩
  | least x =>
    rw [ofInput_of_parseNumber? hs, ofInput_of_parseNumber? ht]
    exact ⟨iff_of_true trivial trivial, nofun⟩

/-- An answer without white space or a sign in front is a number just if it is one with a minus sign in front and
does not begin with a point. If both are integers or both are decimals, the second is the negation of the first. -/
theorem ofInput_minus (h : Text.Bare s) :
    ((ofInput s).IsNumber ↔ (ofInput ("-" ++ s)).IsNumber ∧ s.toList.head? ≠ some '.') ∧
      ((ofInput s).IsNumber → (ofInput s).type = (ofInput ("-" ++ s)).type →
        evalUnary .negate (ofInput s) = .ok (ofInput ("-" ++ s))) := by
  have hhead := Text.head?_trim h
  by_cases hpoint : s.toList.head? = some '.'
  · have hs : ¬ (ofInput s).IsNumber := not_isNumber_ofInput (parseNumber?_point (hhead.trans hpoint))
    exact ⟨iff_of_false hs fun hor => hor.2 hpoint, fun hnumber => absurd hnumber hs⟩
  · have hsign : Signless (Text.trim s).toList := fun c hc => (h c (hhead ▸ hc)).2
    have hopposite := opposite_parseNumber? hsign (hhead.trans_ne hpoint)
    rw [← Text.toList_trim_minus h] at hopposite
    rw [and_iff_left (show s.toList.head? ≠ some '.' from hpoint)]
    exact hopposite.ofInput

theorem ofInput_minus_exponent : Text.Bare "5e-1\n" ∧ (ofInput "5e-1\n").IsNumber ∧
    (ofInput "5e-1\n").type = (ofInput ("-" ++ "5e-1\n")).type ∧ (ofInput ("-" ++ "5e-1\n")).IsNumber ∧
    evalUnary .negate (ofInput "5e-1\n") = .ok (ofInput ("-" ++ "5e-1\n")) := by
  have hbare : Text.Bare "5e-1\n" := by decide
  have hnumber : (ofInput "5e-1\n").IsNumber := by decide +kernel
  have htype : (ofInput "5e-1\n").type = (ofInput ("-" ++ "5e-1\n")).type := by decide +kernel
  obtain ⟨hiff, hopposite⟩ := ofInput_minus hbare
  exact ⟨hbare, hnumber, htype, (hiff.mp hnumber).1, hopposite hnumber htype⟩

/-- One half without a zero before the point is a number behind a minus sign only. -/
theorem ofInput_minus_point : Text.Bare ".5" ∧
    ¬ ((ofInput ".5").IsNumber ↔ (ofInput ("-" ++ ".5")).IsNumber) := by
  have hplain : ¬ (ofInput ".5").IsNumber := by decide +kernel
  have hminus : (ofInput ("-" ++ ".5")).IsNumber := by decide +kernel
  exact ⟨by decide, fun hiff => hplain (hiff.mpr hminus)⟩

end Value
end Pseudocode
