import Pseudocode.Path

/-! # Texts of paths

A text is read as a path if it consists of groups of digits with points between them.
-/

namespace Pseudocode

theorem Text.fields_cases (sep : Char) (cs : List Char) :
    fields sep cs = [cs] ∨ ∃ f rest, cs = f ++ sep :: rest ∧ fields sep cs = f :: fields sep rest := by
  induction cs with
  | nil => exact .inl rfl
  | cons c cs ih =>
    by_cases hc : c = sep
    · subst hc
      exact .inr ⟨[], cs, rfl, by simp [fields]⟩
    · rcases ih with ih | ⟨f, rest, rfl, ih⟩
      · left
        simp [fields, hc, ih]
      · right
        exact ⟨c :: f, rest, rfl, by simp [fields, hc, ih]⟩

theorem Text.fields_append {sep : Char} {f : List Char} (h : sep ∉ f) (rest : List Char) :
    fields sep (f ++ sep :: rest) = f :: fields sep rest := by
  induction f with
  | nil => simp [fields]
  | cons c f ih =>
    rw [List.mem_cons, not_or] at h
    simp [fields, Ne.symm h.1, ih h.2]

theorem Text.fields_eq_singleton {sep : Char} {cs : List Char} (h : sep ∉ cs) :
    fields sep cs = [cs] := by
  rcases fields_cases sep cs with hcs | ⟨f, rest, rfl, -⟩
  · exact hcs
  · simp at h

namespace Path

/-- The text is a group of digits, of a value that a position may have. -/
structure Position (cs : List Char) (n : Nat) : Prop where
  ne_nil : cs ≠ []
  digits : ∀ c ∈ cs, c.isDigit
  value : Decimal.digitsValue cs = n
  pos : 0 < n
  lt : n < positionBound

theorem position_of_parsePosition? {cs : List Char} {n : Nat} (h : parsePosition? cs = some n) :
    Position cs n := by
  unfold parsePosition? at h
  split at h
  case isTrue => cases h
  case isFalse hdigits =>
    obtain ⟨hne, hall⟩ := not_or.mp (mt Bool.or_eq_true_iff.mpr hdigits)
    simp only at h
    split at h
    case isTrue hn =>
      obtain rfl := Option.some.inj h
      exact ⟨by simpa using hne, by simpa using hall, rfl, hn.1, hn.2⟩
    case isFalse => cases h

inductive Spells : List Char → List Nat → Prop where
  | one {cs : List Char} {n : Nat} : Position cs n → Spells cs [n]
  | cons {cs rest : List Char} {n : Nat} {ns : List Nat} :
    Position cs n → Spells rest ns → Spells (cs ++ '.' :: rest) (n :: ns)

theorem spells_of_mapM {cs : List Char} {ns : List Nat}
    (h : (Text.fields '.' cs).mapM parsePosition? = some ns) : Spells cs ns := by
  induction ns generalizing cs with
  | nil =>
    rcases Text.fields_cases '.' cs with hcs | ⟨f, rest, rfl, hcs⟩ <;>
      simp [hcs, Option.bind_eq_some_iff] at h
  | cons n ns ih =>
    rcases Text.fields_cases '.' cs with hcs | ⟨f, rest, rfl, hcs⟩
    · rw [hcs] at h
      simp only [List.mapM_cons, List.mapM_nil, Option.pure_def, Option.bind_eq_bind,
        Option.bind_some, Option.bind_eq_some_iff, Option.some.injEq, List.cons.injEq] at h
      obtain ⟨m, hm, rfl, rfl⟩ := h
      exact .one (position_of_parsePosition? hm)
    · rw [hcs] at h
      simp only [List.mapM_cons, Option.pure_def, Option.bind_eq_bind, Option.bind_eq_some_iff,
        Option.some.injEq, List.cons.injEq] at h
      obtain ⟨m, hm, ms, hms, rfl, rfl⟩ := h
      exact .cons (position_of_parsePosition? hm) (ih hms)

theorem spells_of_parse? {s : String} {p : Path} (h : parse? s = some p) :
    Spells s.toList p.positions := by
  obtain ⟨ns, hns, rfl⟩ := Option.map_eq_some_iff.mp h
  exact spells_of_mapM hns

theorem Position.parsePosition? {cs : List Char} {n : Nat} (h : Position cs n) :
    parsePosition? cs = some n := by
  obtain ⟨hne, hdigits, rfl, hpos, hlt⟩ := h
  have hall : cs.all Char.isDigit := List.all_eq_true.mpr hdigits
  simp [Path.parsePosition?, hne, hall, hpos, hlt]

theorem Position.not_mem {cs : List Char} {n : Nat} (h : Position cs n) : '.' ∉ cs := by
  intro hmem
  exact absurd (h.digits '.' hmem) (by decide)

theorem Spells.mapM_fields {cs : List Char} {ns : List Nat} (h : Spells cs ns) :
    (Text.fields '.' cs).mapM Path.parsePosition? = some ns := by
  induction h with
  | one h => simp [Text.fields_eq_singleton h.not_mem, h.parsePosition?]
  | cons h _ ih => simp [Text.fields_append h.not_mem, h.parsePosition?, ih]

theorem Spells.parse? {s : String} {ns : List Nat} (h : Spells s.toList ns) :
    parse? s = some ⟨ns⟩ := by
  rw [Path.parse?, h.mapM_fields, Option.map_some]

theorem Spells.isDigit_or {cs : List Char} {ns : List Nat} (h : Spells cs ns) :
    ∀ c ∈ cs, c.isDigit ∨ c = '.' := by
  induction h with
  | one h => exact fun c hc => .inl (h.digits c hc)
  | cons h _ ih =>
    intro c hc
    rcases List.mem_append.mp hc with hc | hc
    · exact .inl (h.digits c hc)
    · rcases List.mem_cons.mp hc with rfl | hc
      · exact .inr rfl
      · exact ih c hc

end Path
end Pseudocode
