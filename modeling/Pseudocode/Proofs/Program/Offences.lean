import Pseudocode.Proofs.Instruction.Listing
import Pseudocode.Proofs.Program.RoundTrip

/-! # What validation reports

Validation has nothing to say against a program just if all its instructions and directives are well
formed, which is said here without it. Otherwise it reports the first instruction of the document that
is not, or else the first directive.
-/

namespace Pseudocode

/-! ## Well-formed parts -/

/-- The instruction carries what its kind needs and nothing else, with `depth` blocks around it. -/
structure Instruction.WellFormed (depth : Nat) (i : Instruction) : Prop where
  body : i.body.isSome ↔ i.kind ∈ [.branch, .loop]
  otherwise : i.otherwise.isSome → i.kind = .branch
  target : i.kind ∈ [.assign, .input] → Text.isWord i.argument.toList
  argument : i.kind ∈ [.branch, .loop, .display] →
    ∃ e, i.argumentExpr = some e ∧ e.render = i.argument
  value : i.value.isSome ↔ i.kind = .assign
  nesting : maxNesting ≤ depth → i.body = none ∧ i.otherwise = none

/-- The value is one for the kind of the directive, and the index is empty or a path. -/
structure Directive.WellFormed (d : Directive) : Prop where
  value : d.kind.accepts d.value
  index : d.index = "" ∨ (Path.parse? d.index).isSome

namespace Instruction

variable {i : Instruction} {depth : Nat}

theorem blockOffence?_eq_none_iff : i.blockOffence? = none ↔
    (i.body.isSome ↔ i.kind ∈ [.branch, .loop]) ∧ (i.otherwise.isSome → i.kind = .branch) := by
  obtain ⟨kind, argument, argumentExpr, value, body, otherwise, line⟩ := i
  cases kind <;> cases body <;> cases otherwise <;> simp [blockOffence?, InstructionKind.hasBlock]

theorem argumentOffence?_eq_none_iff : i.argumentOffence? = none ↔
    (i.kind ∈ [.assign, .input] → Text.isWord i.argument.toList) ∧
      (i.kind ∈ [.branch, .loop, .display] →
        ∃ e, i.argumentExpr = some e ∧ e.render = i.argument) := by
  obtain ⟨kind, argument, argumentExpr, value, body, otherwise, line⟩ := i
  cases kind <;> cases argumentExpr <;> simp [argumentOffence?, eq_comm (a := argument)]

theorem valueOffence?_eq_none_iff :
    i.valueOffence? = none ↔ (i.value.isSome ↔ i.kind = .assign) := by
  obtain ⟨kind, argument, argumentExpr, value, body, otherwise, line⟩ := i
  cases kind <;> cases value <;> simp [valueOffence?]

theorem depthOffence?_eq_none_iff :
    (if i.body.isSome && maxNesting ≤ depth then some Offence.tooDeep else none) = none ↔
      (maxNesting ≤ depth → i.body = none) := by
  cases i.body <;> simp

theorem offence?_eq_none_iff : i.offence? depth = none ↔ i.WellFormed depth := by
  simp only [offence?, Option.orElse_eq_orElse, Option.orElse_eq_or, Option.or_eq_none_iff,
    blockOffence?_eq_none_iff, argumentOffence?_eq_none_iff, valueOffence?_eq_none_iff,
    depthOffence?_eq_none_iff]
  constructor
  · rintro ⟨⟨hbody, hotherwise⟩, ⟨htarget, hargument⟩, hvalue, hnesting⟩
    refine ⟨hbody, hotherwise, htarget, hargument, hvalue, fun hdepth => ⟨hnesting hdepth, ?_⟩⟩
    -- without a first block the instruction is no branch
    cases ho : i.otherwise with
    | none => rfl
    | some _ =>
      have hbranch := hotherwise (by rw [ho]; rfl)
      simp [hnesting hdepth, hbranch] at hbody
  · intro h
    exact ⟨⟨h.body, h.otherwise⟩, ⟨h.target, h.argument⟩, h.value, fun hdepth => (h.nesting hdepth).1⟩

/-- Every instruction of the tree is well formed, with the blocks around it that its path goes through. -/
def AllWellFormed (is : List Instruction) : Prop :=
  ∀ (path : Path) (i : Instruction), find? is path.positions = some i → i.WellFormed (path.depth - 1)

/-- The instruction `i` at `path` is ill formed, and none that stands before it is. -/
structure FirstIllFormed (is : List Instruction) (path : Path) (i : Instruction) : Prop where
  found : find? is path.positions = some i
  illFormed : ¬ i.WellFormed (path.depth - 1)
  first : ∀ q j, find? is q.positions = some j → q < path → j.WellFormed (q.depth - 1)

end Instruction

namespace Directive

variable {d : Directive}

theorem isGlobal_iff : d.isGlobal ↔ d.index = "" :=
  String.isEmpty_iff

theorem offence?_eq_none_iff : d.offence? = none ↔ d.WellFormed := by
  have hindex : (d.isGlobal || d.target?.isSome) ↔ d.index = "" ∨ (Path.parse? d.index).isSome := by
    rw [Bool.or_eq_true, isGlobal_iff, target?_eq]
  rw [offence?]
  split
  case isTrue hvalue =>
    refine ⟨fun h => absurd h (Option.some_ne_none _), fun h => ?_⟩
    simp [h.value] at hvalue
  case isFalse hvalue =>
    split
    case isTrue hok => exact ⟨fun _ => ⟨by simpa using hvalue, hindex.mp hok⟩, fun _ => rfl⟩
    case isFalse hbad =>
      exact ⟨fun h => absurd h (Option.some_ne_none _), fun h => absurd (hindex.mpr h.index) hbad⟩

/-- The directive `d`, which `n` directives stand before, is ill formed, and none of these is. -/
structure FirstIllFormed (ds : List Directive) (n : Nat) (d : Directive) : Prop where
  found : ds[n]? = some d
  illFormed : ¬ d.WellFormed
  first : ∀ m d', ds[m]? = some d' → m < n → d'.WellFormed

end Directive

/-! ## The first offence -/

variable {is : List Instruction} {ds : List Directive} {e : ValidationError}

theorem errorAt?_eq_none_iff {path : Path} {i : Instruction} :
    errorAt? path i = none ↔ i.WellFormed (path.depth - 1) := by
  rw [errorAt?, Option.map_eq_none_iff, Instruction.offence?_eq_none_iff]

theorem checkInstructions_eq_none_iff :
    checkInstructions is = none ↔ Instruction.AllWellFormed is := by
  simp only [checkInstructions_eq, List.findSome?_eq_none_iff, Prod.forall, errorAt?_eq_none_iff,
    Instruction.mem_listing_iff, Instruction.AllWellFormed]

/-- The error of a tree is the first one, in the order of the paths, of an instruction at its path. -/
theorem checkInstructions_eq_some_iff : checkInstructions is = some e ↔
    ∃ path i, Instruction.find? is path.positions = some i ∧ errorAt? path i = some e ∧
      ∀ q j, Instruction.find? is q.positions = some j → q < path → errorAt? q j = none := by
  rw [checkInstructions_eq, Instruction.findSome?_listing_eq_some_iff]

theorem firstIllFormed_of_checkInstructions (h : checkInstructions is = some e) :
    ∃ path i o, Instruction.FirstIllFormed is path i ∧ e = ⟨.instruction path, i.line, o⟩ := by
  obtain ⟨path, i, hi, herror, hfirst⟩ := checkInstructions_eq_some_iff.mp h
  obtain ⟨o, -, rfl⟩ := Option.map_eq_some_iff.mp herror
  refine ⟨path, i, o, ⟨hi, ?_, fun q j hj hq => ?_⟩, rfl⟩
  · rw [← errorAt?_eq_none_iff, herror]
    nofun
  · exact errorAt?_eq_none_iff.mp (hfirst q j hj hq)

theorem exists_checkDirectives_iff :
    (∃ targets, checkDirectives ds = .ok targets) ↔ ∀ d ∈ ds, d.WellFormed := by
  simp only [checkDirectives, checkDirectivesFrom_eq_ok_iff, exists_and_left, exists_eq, and_true,
    Directive.offence?_eq_none_iff]

theorem exists_error_checkDirectives (h : ∃ d ∈ ds, ¬ d.WellFormed) :
    ∃ e, checkDirectives ds = .error e := by
  cases hds : checkDirectives ds with
  | error e => exact ⟨e, rfl⟩
  | ok targets =>
    obtain ⟨d, hd, hbad⟩ := h
    exact absurd (exists_checkDirectives_iff.mp ⟨targets, hds⟩ d hd) hbad

theorem firstIllFormed_of_checkDirectives (h : checkDirectives ds = .error e) :
    ∃ n d o, Directive.FirstIllFormed ds n d ∧ e = ⟨.directive (n + 1), d.line, o⟩ := by
  obtain ⟨n, d, o, hn, ho, rfl, hfirst⟩ := exists_of_checkDirectivesFrom h
  refine ⟨n, d, o, ⟨hn, ?_, fun m d' hm hlt => ?_⟩, rfl⟩
  · rw [← Directive.offence?_eq_none_iff, ho]
    nofun
  · exact Directive.offence?_eq_none_iff.mp (hfirst m d' hm hlt)

namespace Program

theorem exists_ofParts_iff :
    (∃ p, ofParts is ds = .ok p) ↔
      checkInstructions is = none ∧ ∃ targets, checkDirectives ds = .ok targets := by
  constructor
  · rintro ⟨p, hp⟩
    obtain ⟨rfl, rfl⟩ := ofParts_eq_ok_iff.mp hp
    exact ⟨p.instructions_valid, p.targets, p.directives_valid⟩
  · rintro ⟨hi, targets, hd⟩
    exact ⟨⟨is, ds, targets, hi, hd⟩, ofParts_eq_ok_iff.mpr ⟨rfl, rfl⟩⟩

/-- Validation accepts just what is well formed in all its parts, and reports the first part of the
document that is not, instructions before directives. -/
theorem ofParts_reports_first (is : List Instruction) (ds : List Directive) :
    ((∃ p, ofParts is ds = .ok p) ↔ Instruction.AllWellFormed is ∧ ∀ d ∈ ds, d.WellFormed) ∧
    (¬ Instruction.AllWellFormed is → ∃ path i o, Instruction.FirstIllFormed is path i ∧
      ofParts is ds = .error ⟨.instruction path, i.line, o⟩) ∧
    (Instruction.AllWellFormed is → (∃ d ∈ ds, ¬ d.WellFormed) →
      ∃ n d o, Directive.FirstIllFormed ds n d ∧
        ofParts is ds = .error ⟨.directive (n + 1), d.line, o⟩) := by
  refine ⟨?_, fun his => ?_, fun his hds => ?_⟩
  · rw [exists_ofParts_iff, checkInstructions_eq_none_iff, exists_checkDirectives_iff]
  · rw [← checkInstructions_eq_none_iff] at his
    obtain ⟨e, he⟩ := Option.ne_none_iff_exists'.mp his
    obtain ⟨path, i, o, hfirst, rfl⟩ := firstIllFormed_of_checkInstructions he
    exact ⟨path, i, o, hfirst, ofParts_eq_error_iff.mpr (.inl he)⟩
  · rw [← checkInstructions_eq_none_iff] at his
    obtain ⟨e, he⟩ := exists_error_checkDirectives hds
    obtain ⟨n, d, o, hfirst, rfl⟩ := firstIllFormed_of_checkDirectives he
    exact ⟨n, d, o, hfirst, ofParts_eq_error_iff.mpr (.inr ⟨his, he⟩)⟩

end Program
end Pseudocode
