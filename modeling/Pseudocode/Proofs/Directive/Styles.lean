import Pseudocode.Proofs.Directive.Values

/-! # Directives of known kinds printed and read again

A directive of a known kind need not have been read: whatever its value is, if the value can be written down
the text of the directive is read as the same directive, with numbers compared as numbers.
-/

namespace Pseudocode

/-- The value has a text: its color is one, its numbers are finite, a size is positive, and the name of a
font stays on its line. -/
def DirectiveValue.Writable : DirectiveValue → Prop
  | .hexColor s => isHexColor s
  | .triple a b c => ∀ x ∈ [a, b, c], Decimal.isFinite x
  | .size d => Decimal.isFinite d ∧ 0 < d
  | .font name => '\n' ∉ name.toList
  | .raw _ => False

namespace DirectiveKind

/-- The name of a known kind is a word that leads back to the kind. -/
theorem ofName_style (p : Property) (c : Category) :
    DirectiveValue.isPlainWord (style p c).name ∧ ofName (style p c).name = style p c := by
  cases p <;> cases c <;> decide

variable {p : Property} {c : Category}

theorem accepts_hexColor {s : String} :
    (style p c).accepts (.hexColor s) ↔ p = .color ∨ p = .textColor := by
  cases p <;> simp [accepts]

theorem accepts_triple {x y z : Float} : (style p c).accepts (.triple x y z) ↔ p = .figure := by
  cases p <;> simp [accepts]

theorem accepts_size {x : Float} : (style p c).accepts (.size x) ↔ p = .fontSize := by
  cases p <;> simp [accepts]

theorem accepts_font {name : String} : (style p c).accepts (.font name) ↔ p = .font := by
  cases p <;> simp [accepts]

end DirectiveKind

theorem isWordChar_of_isHexDigit {c : Char} (h : isHexDigit c) : Text.isWordChar c := by
  simp only [isHexDigit, Bool.or_eq_true, Bool.and_eq_true, decide_eq_true_eq, or_assoc, Char.le_def,
    UInt32.le_iff_toNat_le] at h
  have hletter (hrange : 65 ≤ c.toNat ∧ c.toNat ≤ 90 ∨ 97 ≤ c.toNat ∧ c.toNat ≤ 122) :
      Text.isLetter c := by
    rw [Text.isLetter, if_pos (by omega)]
    simp only [Char.isAlpha, Char.isUpper, Char.isLower, Bool.or_eq_true, Bool.and_eq_true,
      decide_eq_true_eq, UInt32.le_iff_toNat_le]
    exact hrange
  rw [Text.isWordChar, Bool.or_eq_true, Bool.or_eq_true]
  rcases h with h | ⟨hl, hu⟩ | ⟨hl, hu⟩
  · have hrange := Lexer.isDigit_iff.mp h
    left
    right
    rwa [Text.isNumeral, if_pos (by omega)]
  · exact .inl (.inl (hletter (.inr ⟨hl, hu.trans (by decide)⟩)))
  · exact .inl (.inl (hletter (.inl ⟨hl, hu.trans (by decide)⟩)))

/-- No keyword begins as a color does. -/
theorem isPlainWord_of_isHexColor {s : String} (h : isHexColor s) : DirectiveValue.isPlainWord s := by
  unfold isHexColor at h
  split at h
  case h_1 cs hs =>
    obtain ⟨-, hall⟩ := Bool.and_eq_true_iff.mp h
    have hword : Text.isWord s.toList := by
      rw [hs, Text.isWord, Bool.and_eq_true, List.all_eq_true]
      exact ⟨by decide, fun c hc => isWordChar_of_isHexDigit (List.all_eq_true.mp hall c hc)⟩
    have hnone : Keyword.ofWord? s = none := by
      unfold Keyword.ofWord?
      split
      case h_17 => rfl
      all_goals cases hs
    exact Directive.isPlainWord_iff.mpr ⟨hword, hnone⟩
  case h_2 => cases h

namespace Directive

open DirectiveValue

variable {p : Property} {c : Category} {v : DirectiveValue}

/-- A value that can be written down is read back by its kind. -/
theorem exists_spellsValue (haccepts : (DirectiveKind.style p c).accepts v) (hv : v.Writable) :
    ∃ us written w, SpellsValue v.render us written ∧
      (DirectiveKind.style p c).interpret (lexemes us) written = .ok w ∧ w.same v := by
  cases v with
  | hexColor s =>
    refine ⟨_, _, .hexColor s, spellsValue_word (isPlainWord_of_isHexColor hv), ?_, by
      simp [DirectiveValue.same]⟩
    rcases DirectiveKind.accepts_hexColor.mp haccepts with rfl | rfl <;> exact if_pos hv
  | triple x y z =>
    obtain rfl := DirectiveKind.accepts_triple.mp haccepts
    have htext : (triple x y z).render.toList = (renderNumber x).toList ++
        [y, z].flatMap fun x => ',' :: (renderNumber x).toList := by
      simp [DirectiveValue.render]
    obtain ⟨us, x', _, hspells, hnumbers⟩ := exists_spellsValue_numbers hv htext
    rcases hnumbers with _ | ⟨hx, _ | ⟨hy, _ | ⟨hz, _ | _⟩⟩⟩
    refine ⟨us, _, .triple x' _ _, hspells, rfl, ?_⟩
    rw [DirectiveValue.same, hx.beq (hv x (by simp)), hy.beq (hv y (by simp)), hz.beq (hv z (by simp))]
    rfl
  | size x =>
    obtain rfl := DirectiveKind.accepts_size.mp haccepts
    have htext : (size x).render.toList = (renderNumber x).toList ++
        [].flatMap fun x => ',' :: (renderNumber x).toList := by
      simp [DirectiveValue.render]
    obtain ⟨us, x', _, hspells, hnumbers⟩ := exists_spellsValue_numbers (by simpa using hv.1) htext
    rcases hnumbers with _ | ⟨hx, _ | _⟩
    exact ⟨us, _, .size x', hspells, if_pos (hx.pos hv.2), hx.beq hv.1⟩
  | font name =>
    obtain rfl := DirectiveKind.accepts_font.mp haccepts
    rw [DirectiveValue.render]
    split
    case isTrue hplain =>
      exact ⟨_, _, .font name, spellsValue_word hplain, rfl, by simp [DirectiveValue.same]⟩
    case isFalse =>
      exact ⟨_, _, .font name, spellsValue_text hv, rfl, by simp [DirectiveValue.same]⟩
  | raw s => exact hv.elim

end Directive

/-! ## From the text to the program -/

namespace Path

variable {index : String} {ns : List Nat}

theorem lastFits_of_forall (h : ∀ n ∈ ns, n < 2 ^ 63) : LastFits ns :=
  fun _ n hn => h n (List.mem_of_getLast? hn)

/-- The text is empty, or a path all of whose positions are 64-bit integers. -/
def Addresses (index : String) : Prop :=
  index = "" ∨ ∃ ns, Spells index.toList ns ∧ ∀ n ∈ ns, n < 2 ^ 63

theorem Addresses.isSome (h : Addresses index) : index = "" ∨ (Path.parse? index).isSome := by
  rcases h with h | ⟨ns, hspells, -⟩
  · exact .inl h
  · exact .inr (by rw [hspells.parse?]; rfl)

theorem Addresses.exists_indexTokens (h : Addresses index) :
    ∃ ps, IndexTokens index.toList ps := by
  rcases h with rfl | ⟨ns, hspells, hns⟩
  · exact ⟨[], indexTokens_nil⟩
  · exact hspells.exists_indexTokens.1 (lastFits_of_forall hns)

end Path

namespace Program

open Lexer Directive

variable {d : Directive} {us : List Token} {written : WrittenValue} {w : DirectiveValue}

/-- A directive whose text spells a value that its kind reads is read as one with this value. -/
theorem exists_ofSource_of_spellsValue (hspells : SpellsValue d.value.render us written)
    (hplain : DirectiveValue.isPlainWord d.kind.name) (hkind : .ofName d.kind.name = d.kind)
    (hvalue : d.kind.interpret (lexemes us) written = .ok w) (hindex : Path.Addresses d.index) :
    ∃ q e, Program.ofSource d.render = .ok q ∧ q.instructions = [] ∧ q.directives = [e] ∧
      e.kind = d.kind ∧ e.value = w ∧ e.index = d.index := by
  obtain ⟨ps, hps⟩ := hindex.exists_indexTokens
  obtain ⟨hword, hnone⟩ := isPlainWord_iff.mp hplain
  obtain ⟨ts, hts, hspelled⟩ := Token.exists_of_scans (hspells.scans (lexed_word hword hnone) rfl hps)
  obtain ⟨t, ts, rfl, ht, hspelled⟩ := List.map_eq_cons_iff.mp hspelled
  rw [← List.append_assoc, ← List.cons_append] at hspelled
  obtain ⟨others, eofs, rfl, hothers, heof⟩ := List.map_eq_append_iff.mp hspelled
  obtain ⟨eof, rfl, -⟩ := List.map_eq_singleton_iff.mp heof
  have hreads := fun final =>
    reads_of_spelled rfl hspells.written (hkind.symm ▸ hvalue) hps hothers final t.span.line
  obtain ⟨q, hq, hinstructions, hdirectives⟩ := exists_ofSource_of_reads hts (congrArg Prod.fst ht)
    hreads ⟨DirectiveKind.accepts_of_interpret (hkind.symm ▸ hvalue), hindex.isSome⟩
  exact ⟨q, _, hq, hinstructions, hdirectives, hkind, rfl, rfl⟩

/-- A directive of a known kind is read off its text again, whether or not it has been read before: with its
kind, its index, and its value, but for the sign of a zero. -/
theorem ofSource_render_style {property : Property} {category : Category}
    (hk : d.kind = .style property category) (haccepts : d.kind.accepts d.value)
    (hv : d.value.Writable) (hindex : Path.Addresses d.index) :
    ∃ q e, Program.ofSource d.render = .ok q ∧ q.instructions = [] ∧ q.directives = [e] ∧
      e.kind = d.kind ∧ e.index = d.index ∧ e.value.same d.value := by
  obtain ⟨hplain, hkind⟩ := DirectiveKind.ofName_style property category
  rw [hk] at haccepts
  obtain ⟨us, written, w, hspells, hvalue, hsame⟩ := exists_spellsValue haccepts hv
  rw [← hk] at hplain hkind hvalue
  obtain ⟨q, e, hq, hinstructions, hdirectives, hekind, rfl, heindex⟩ :=
    exists_ofSource_of_spellsValue hspells hplain hkind hvalue hindex
  exact ⟨q, e, hq, hinstructions, hdirectives, hekind, heindex, hsame⟩

/-- A figure with a negative zero, a number that is not whole and one far out of the range of integers. -/
theorem ofSource_render_style_figure :
    Path.Spells "1.12.3".toList [1, 12, 3] ∧
    ∃ q e, Program.ofSource (Directive.render
        ⟨.style .figure .si, .triple (-0) (-2.5) 1e300, "1.12.3", 0⟩) = .ok q ∧ q.instructions = [] ∧
      q.directives = [e] ∧ e.kind = .style .figure .si ∧ e.index = "1.12.3" ∧
      e.value.same (.triple (-0) (-2.5) 1e300) := by
  have hspells : Path.Spells "1.12.3".toList [1, 12, 3] := Path.spells_of_parse? (by decide +kernel)
  have hfinite : ∀ x ∈ [-0, -2.5, 1e300], Decimal.isFinite x := by decide +kernel
  exact ⟨hspells, ofSource_render_style rfl rfl hfinite (.inr ⟨_, hspells, by decide⟩)⟩

end Program
end Pseudocode
