import Pseudocode.Proofs.Decimal.Integers
import Pseudocode.Proofs.Path

/-! # Paths printed and read again

A path is printed as the digits of its positions, with points between them. A text that is read as a path is
printed without the zeros in front of its positions, and what a path is printed as is read as the path again.
-/

namespace Pseudocode.Path

open Decimal

variable {cs : List Char} {n m : Nat} {ns : List Nat} {p : Path} {s : String}

/-! ## Texts of positions -/

theorem render_singleton (n : Nat) : (render ⟨[n]⟩).toList = Nat.toDigits 10 n := by
  rw [render, List.map_singleton, String.intercalate_singleton]
  exact Nat.toList_repr

theorem render_cons (n m : Nat) (ns : List Nat) :
    (render ⟨n :: m :: ns⟩).toList = Nat.toDigits 10 n ++ '.' :: (render ⟨m :: ns⟩).toList := by
  have hn : (toString n).toList = Nat.toDigits 10 n := Nat.toList_repr
  rw [render, render, List.map_cons, List.map_cons, String.intercalate_cons_cons, String.toList_append,
    String.toList_append, hn, List.append_assoc]
  rfl

theorem not_mem_toDigits (n : Nat) : '.' ∉ Nat.toDigits 10 n := by
  intro h
  exact absurd (isDigit_of_mem_toDigits h) (by decide)

theorem fields_render (h : ns ≠ []) :
    Text.fields '.' (render ⟨ns⟩).toList = ns.map (Nat.toDigits 10) := by
  induction ns with
  | nil => exact absurd rfl h
  | cons n ns ih =>
    cases ns with
    | nil =>
      rw [render_singleton]
      exact Text.fields_eq_singleton (not_mem_toDigits n)
    | cons m ns =>
      rw [render_cons, Text.fields_append (not_mem_toDigits n), ih (List.cons_ne_nil m ns)]
      rfl

theorem render_injective : Function.Injective render := by
  have hroot {ns : List Nat} (h : ns ≠ []) : render ⟨ns⟩ ≠ render root := by
    intro heq
    have hfields : ns.map (Nat.toDigits 10) = [[]] := by
      rw [← fields_render h, heq]
      rfl
    obtain ⟨n, -, hn⟩ := List.map_eq_singleton_iff.mp hfields
    exact Nat.toDigits_ne_nil hn
  rintro ⟨ns⟩ ⟨ms⟩ heq
  rcases eq_or_ne ns [] with rfl | hns
  · rcases eq_or_ne ms [] with rfl | hms
    · rfl
    · exact absurd heq.symm (hroot hms)
  · rcases eq_or_ne ms [] with rfl | hms
    · exact absurd heq (hroot hns)
    · have hdigits : Function.LeftInverse digitsValue (Nat.toDigits 10) := digitsValue_toDigits
      have hmap : ns.map (Nat.toDigits 10) = ms.map (Nat.toDigits 10) := by
        rw [← fields_render hns, ← fields_render hms, heq]
      rw [List.map_injective_iff.mpr hdigits.injective hmap]

/-! ## Reading what is printed -/

theorem position_toDigits (hpos : 0 < n) (hlt : n < positionBound) : Position (Nat.toDigits 10 n) n where
  ne_nil := Nat.toDigits_ne_nil
  digits _ := isDigit_of_mem_toDigits
  value := digitsValue_toDigits n
  pos := hpos
  lt := hlt

theorem spells_render (hne : ns ≠ []) (h : ∀ n ∈ ns, 0 < n ∧ n < positionBound) :
    Spells (render ⟨ns⟩).toList ns := by
  induction ns with
  | nil => exact absurd rfl hne
  | cons n ns ih =>
    obtain ⟨⟨hpos, hlt⟩, hns⟩ := List.forall_mem_cons.mp h
    cases ns with
    | nil =>
      rw [render_singleton]
      exact .one (position_toDigits hpos hlt)
    | cons m ns =>
      rw [render_cons]
      exact .cons (position_toDigits hpos hlt) (ih (List.cons_ne_nil m ns) hns)

/-! ## Printing what is read -/

/-- The text without the zeros in front of its pieces between points. -/
def withoutZeros (s : String) : String :=
  ".".intercalate ((Text.fields '.' s.toList).map fun f => .ofList (f.dropWhile (· == '0')))

theorem Position.toString_eq (h : Position cs n) : toString n = .ofList (cs.dropWhile (· == '0')) := by
  obtain ⟨-, hdigits, rfl, hpos, -⟩ := h
  rw [← toDigits_digitsValue hdigits hpos]
  exact Nat.toString_eq_ofList_toDigits

theorem Spells.map_toString (h : Spells cs ns) :
    ns.map toString = (Text.fields '.' cs).map fun f => .ofList (f.dropWhile (· == '0')) := by
  induction h with
  | one h => rw [Text.fields_eq_singleton h.not_mem, List.map_singleton, List.map_singleton, h.toString_eq]
  | cons h _ ih => rw [Text.fields_append h.not_mem, List.map_cons, List.map_cons, h.toString_eq, ih]

/-- A text that is read as a path is printed without the zeros in front of its positions. -/
theorem render_of_parse? (h : parse? s = some p) : p.render = withoutZeros s :=
  congrArg _ (spells_of_parse? h).map_toString

/-- A text is read as a path just if it consists of groups of digits with points between them, each group of a
positive value that fits 64 bits. The path is printed as the text without zeros in front of the groups, each path
is read again off what it is printed as, and distinct paths are printed as distinct texts. -/
theorem parse?_exact :
    (∀ s p, parse? s = some p ↔ Spells s.toList p.positions) ∧
      (∀ s p, parse? s = some p → p.render = withoutZeros s) ∧
      (∀ p, p ≠ root → (∀ n ∈ p.positions, 0 < n ∧ n < 2 ^ 64) → parse? p.render = some p) ∧
      Function.Injective render := by
  refine ⟨fun s p => ?_, fun s p => render_of_parse?, fun p hroot h => ?_, render_injective⟩
  · constructor
    · exact spells_of_parse?
    · exact Spells.parse?
  · have hne : p.positions ≠ [] := fun hnil => hroot (congrArg mk hnil)
    exact (spells_render hne h).parse?

theorem parse?_exact_zeros :
    parse? "003.18446744073709551615" = some ⟨[3, 18446744073709551615]⟩ ∧
      render ⟨[3, 18446744073709551615]⟩ = withoutZeros "003.18446744073709551615" ∧
      withoutZeros "003.18446744073709551615" = "3.18446744073709551615" ∧
      parse? (render ⟨[3, 18446744073709551615]⟩) = some ⟨[3, 18446744073709551615]⟩ := by
  have h : parse? "003.18446744073709551615" = some ⟨[3, 18446744073709551615]⟩ := by decide +kernel
  obtain ⟨-, hprinted, hread, -⟩ := parse?_exact
  exact ⟨h, hprinted _ _ h, by decide +kernel, hread _ (by decide) (by decide)⟩

end Pseudocode.Path
