import Mathlib.Logic.ExistsUnique
import Pseudocode.Program
import Pseudocode.Proofs.Path

/-! # What directives are aimed at

A directive of a program is for the whole program, or it is aimed at just one path, which its index spells. The
index may have zeros in front of its positions, so it is the path and not the text that counts.
-/

namespace Pseudocode

variable {p : Program} {d : Directive} {path q : Path}

namespace Directive

/-- The directive is aimed at the instruction at `path`: its index spells the positions. -/
def Aims (d : Directive) (path : Path) : Prop :=
  Path.Spells d.index.toList path.positions

theorem target?_eq_some_iff : d.target? = some path ↔ d.Aims path := by
  rw [target?_eq]
  exact ⟨Path.spells_of_parse?, fun h => h.parse?⟩

theorem beq_target?_iff (d : Directive) : d.target? == some path ↔ d.Aims path := by
  rw [beq_iff_eq, target?_eq_some_iff]

theorem Aims.unique (h : d.Aims path) (h' : d.Aims q) : q = path :=
  Option.some.inj ((target?_eq_some_iff.mpr h').symm.trans (target?_eq_some_iff.mpr h))

theorem Aims.not_isGlobal (h : d.Aims path) : ¬ d.isGlobal := by
  intro hglobal
  rw [← target?_eq_some_iff, target?, if_pos hglobal] at h
  cases h

theorem aims_of_index (h : d.index = "01" ∨ d.index = "1") (path : Path) :
    d.Aims path ↔ path = ⟨[1]⟩ := by
  have hparse : Path.parse? d.index = some ⟨[1]⟩ := by
    rcases h with h | h <;> rw [h] <;> decide +kernel
  have haims : d.Aims ⟨[1]⟩ := Path.spells_of_parse? hparse
  constructor
  · exact haims.unique
  · rintro rfl
    exact haims

theorem accepts_of_offence? (h : d.offence? = none) : d.kind.accepts d.value := by
  unfold offence? at h
  cases haccepts : d.kind.accepts d.value <;> simp_all

theorem isGlobal_or_aims (h : d.offence? = none) :
    (d.isGlobal ∧ ∀ path, ¬ d.Aims path) ∨ ¬ d.isGlobal ∧ ∃! path, d.Aims path := by
  by_cases hglobal : d.isGlobal
  · exact .inl ⟨hglobal, fun path haims => haims.not_isGlobal hglobal⟩
  · have htarget : ∃ path, d.target? = some path := by
      unfold offence? at h
      cases haccepts : d.kind.accepts d.value <;> cases htarget : d.target? <;> simp_all
    obtain ⟨path, hpath⟩ := htarget
    have haims := target?_eq_some_iff.mp hpath
    exact .inr ⟨hglobal, path, haims, fun q hq => haims.unique hq⟩

end Directive

namespace Program

theorem offence?_of_mem (hd : d ∈ p.directives) : d.offence? = none :=
  (checkDirectivesFrom_eq_ok_iff.mp p.directives_valid).1 d hd

/-- The list of targets goes along with that of the directives. -/
theorem targets_eq (p : Program) : p.targets = p.directives.map Directive.target? :=
  (checkDirectivesFrom_eq_ok_iff.mp p.directives_valid).2

theorem targeting_eq (p : Program) (test : Option Path → Bool) :
    p.targeting test = p.directives.filter (test ·.target?) := by
  rw [targeting, targets_eq, ← List.map_prod_left_eq_zip, List.filter_map, List.map_map]
  exact List.map_id _

theorem globals_eq_filter (p : Program) : p.globals = p.directives.filter (·.target?.isNone) :=
  p.targeting_eq (·.isNone)

theorem aimedAt_eq_filter (p : Program) (path : Path) :
    p.aimedAt path = p.directives.filter (·.target? == some path) :=
  p.targeting_eq (· == some path)

theorem globals_eq (p : Program) : p.globals = p.directives.filter (·.isGlobal) := by
  rw [globals_eq_filter]
  apply List.filter_congr
  intro d hd
  rw [Bool.eq_iff_iff, Option.isNone_iff_eq_none]
  constructor
  · intro hnone
    rcases Directive.isGlobal_or_aims (offence?_of_mem hd) with ⟨hglobal, -⟩ | ⟨-, path, haims, -⟩
    · exact hglobal
    · rw [Directive.target?_eq_some_iff.mpr haims] at hnone
      cases hnone
  · intro hglobal
    rw [Directive.target?, if_pos hglobal]

theorem isGlobal_of_mem_globals (h : d ∈ p.globals) : d.isGlobal = true := by
  rw [globals_eq] at h
  exact (List.mem_filter.mp h).2

theorem isGlobal_of_mem_aimedAt (h : d ∈ p.aimedAt path) : d.isGlobal = false := by
  rw [aimedAt_eq_filter] at h
  exact Bool.eq_false_iff.mpr (d.beq_target?_iff.mp (List.mem_filter.mp h).2).not_isGlobal

end Program
end Pseudocode
