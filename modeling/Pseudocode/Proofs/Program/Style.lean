import Mathlib.Logic.Relation
import Pseudocode.Proofs.Program.Targets

/-! # What decides a style

The style of an instruction has in each field the value of the last directive for the field that is aimed at the
instruction; without any, that of the last one for the whole program; and without any of these, its default. So
a directive that is for other instructions changes nothing, wherever it stands, and neither does the order
between directives that are aimed at the instruction and those that are not aimed at any.
-/

namespace Pseudocode

variable {ds es as bs : List Directive} {d e : Directive} {path : Path} {k : InstructionKind}
  {P Q : Directive → Prop} {s : Style} {p q : Program}

/-! ## Fields -/

inductive Field where
  | property (p : Property)
  /-- The value of the unknown kind of this name. -/
  | extra (name : String)
  deriving DecidableEq

def DirectiveKind.field : DirectiveKind → Field
  | .style property _ => .property property
  | .unknown name => .extra name

/-- What stands in a field of a style, as the value that a directive gives to it. -/
def Style.value? (s : Style) : Field → Option DirectiveValue
  | .property .color => some (.hexColor s.color)
  | .property .textColor => some (.hexColor s.textColor)
  | .property .figure => s.figure.map fun (a, b, c) => .triple a b c
  | .property .fontSize => some (.size s.fontSize)
  | .property .font => some (.font s.font)
  | .extra name => (s.extras.get? name).map .raw

namespace Style

theorem value?_apply (h : d.kind.accepts d.value) (f : Field) :
    (s.apply d).value? f = if d.kind.field = f then some d.value else s.value? f := by
  obtain ⟨kind, value, index, line⟩ := d
  cases kind with
  | style property category =>
    cases property <;> cases value <;> cases h <;> rcases f with ⟨_ | _ | _ | _ | _⟩ | name <;> rfl
  | unknown name =>
    cases value with
    | raw text =>
      rcases f with ⟨_ | _ | _ | _ | _⟩ | key
      case extra =>
        simp only [apply, value?, DirectiveKind.name, DirectiveValue.render, NameMap.get?_insert,
          DirectiveKind.field, Field.extra.injEq, eq_comm (a := name)]
        split <;> rfl
      all_goals rfl
    | _ => cases h

theorem value?_foldl_of_forall_ne {f : Field} (hds : ∀ d ∈ ds, d.kind.accepts d.value)
    (hf : ∀ d ∈ ds, d.kind.field ≠ f) : (ds.foldl apply s).value? f = s.value? f := by
  induction ds generalizing s with
  | nil => rfl
  | cons d ds ih =>
    rw [List.forall_mem_cons] at hds hf
    rw [List.foldl_cons, ih hds.2 hf.2, value?_apply hds.1, if_neg hf.1]

end Style

/-! ## The last directive of a sort -/

def IsLast (P : Directive → Prop) (ds : List Directive) (d : Directive) : Prop :=
  ∃ as bs, ds = as ++ d :: bs ∧ P d ∧ ∀ e ∈ bs, ¬ P e

namespace IsLast

theorem of_append_right (h : IsLast P bs d) (as : List Directive) : IsLast P (as ++ bs) d := by
  obtain ⟨cs, es, rfl, hd, hes⟩ := h
  exact ⟨as ++ cs, es, (List.append_assoc as cs (d :: es)).symm, hd, hes⟩

theorem of_append_left (h : IsLast P as d) (hbs : ∀ e ∈ bs, ¬ P e) : IsLast P (as ++ bs) d := by
  obtain ⟨cs, es, rfl, hd, hes⟩ := h
  refine ⟨cs, es ++ bs, List.append_assoc cs (d :: es) bs, hd, ?_⟩
  exact List.forall_mem_append.mpr ⟨hes, hbs⟩

theorem filter {test : Directive → Bool} (h : IsLast Q ds d) (hQ : ∀ d, Q d ↔ P d ∧ test d) :
    IsLast P (ds.filter test) d := by
  obtain ⟨as, bs, rfl, hd, hbs⟩ := h
  obtain ⟨hP, htest⟩ := (hQ d).mp hd
  refine ⟨as.filter test, bs.filter test, by simp [htest], hP, fun e he hPe => ?_⟩
  obtain ⟨hmem, htest⟩ := List.mem_filter.mp he
  exact hbs e hmem ((hQ e).mpr ⟨hPe, htest⟩)

theorem exists_or (P : Directive → Prop) (ds : List Directive) :
    (∃ d, IsLast P ds d) ∨ ∀ d ∈ ds, ¬ P d := by
  induction ds with
  | nil => exact .inr nofun
  | cons d ds ih =>
    rcases ih with ⟨e, he⟩ | hds
    · exact .inl ⟨e, he.of_append_right [d]⟩
    · by_cases hd : P d
      · exact .inl ⟨d, [], ds, rfl, hd, hds⟩
      · exact .inr (List.forall_mem_cons.mpr ⟨hd, hds⟩)

/-- The last directive for a field decides what stands in it. -/
theorem value?_foldl {f : Field} (h : IsLast (·.kind.field = f) ds d)
    (hds : ∀ d ∈ ds, d.kind.accepts d.value) : (ds.foldl Style.apply s).value? f = some d.value := by
  obtain ⟨as, bs, rfl, hd, hbs⟩ := h
  rw [List.forall_mem_append, List.forall_mem_cons] at hds
  rw [List.foldl_append, List.foldl_cons, Style.value?_foldl_of_forall_ne hds.2.2 hbs,
    Style.value?_apply hds.2.1, if_pos hd]

end IsLast

theorem forall_field_ne {test : Directive → Bool} {f : Field} (h : ∀ d ∈ ds, ¬ Q d)
    (hQ : ∀ d, Q d ↔ d.kind.field = f ∧ test d) : ∀ d ∈ ds.filter test, d.kind.field ≠ f := by
  intro d hd hf
  obtain ⟨hmem, htest⟩ := List.mem_filter.mp hd
  exact h d hmem ((hQ d).mpr ⟨hf, htest⟩)

/-! ## What has a part in a style -/

namespace Directive

def Sets (d : Directive) (f : Field) (k : InstructionKind) : Prop :=
  d.kind.field = f ∧ d.kind.appliesTo k

/-- The directive has a part in the style of an instruction of kind `k` at `path`. -/
def Concerns (d : Directive) (path : Path) (k : InstructionKind) : Prop :=
  d.kind.appliesTo k ∧ (d.isGlobal ∨ d.Aims path)

def isGeneral (k : InstructionKind) (d : Directive) : Bool :=
  d.isGlobal && d.kind.appliesTo k

def isAimed (path : Path) (k : InstructionKind) (d : Directive) : Bool :=
  d.target? == some path && d.kind.appliesTo k

theorem sets_isGlobal_iff {f : Field} (d : Directive) :
    d.Sets f k ∧ d.isGlobal ↔ d.kind.field = f ∧ d.isGeneral k := by
  rw [Sets, isGeneral, Bool.and_eq_true, and_assoc, and_comm (a := d.isGlobal = true)]

theorem sets_aims_iff {f : Field} (d : Directive) :
    d.Sets f k ∧ d.Aims path ↔ d.kind.field = f ∧ d.isAimed path k := by
  rw [Sets, isAimed, Bool.and_eq_true, beq_target?_iff, and_assoc, and_comm (a := d.Aims path)]

theorem concerns_iff : d.Concerns path k ↔ d.isGeneral k ∨ d.isAimed path k := by
  rw [isGeneral, isAimed, Bool.and_eq_true, Bool.and_eq_true, beq_target?_iff, ← or_and_right, and_comm]
  rfl

theorem Aims.isGeneral_eq_false {q : Path} (h : d.Aims q) (k : InstructionKind) : d.isGeneral k = false := by
  rw [isGeneral, Bool.eq_false_iff.mpr h.not_isGlobal, Bool.false_and]

theorem isAimed_eq_false (h : d.isGlobal) (path : Path) (k : InstructionKind) :
    d.isAimed path k = false := by
  simp [isAimed, target?, h]

end Directive

theorem Program.style_eq (p : Program) (path : Path) (k : InstructionKind) : p.style path k =
    (p.directives.filter (·.isGeneral k) ++ p.directives.filter (·.isAimed path k)).foldl Style.apply
      .default := by
  rw [style, Style.resolve, globals_eq, aimedAt_eq_filter, List.filter_append, List.filter_filter,
    List.filter_filter]
  simp only [Bool.and_comm]
  rfl

/-! ## What stands in a field -/

namespace Program

/-- The value of a field in the style of an instruction of kind `k` at `path`, as the directives of the program
say. -/
inductive Decides (p : Program) (path : Path) (k : InstructionKind) (f : Field) :
    Option DirectiveValue → Prop where
  | aimed {d : Directive} : IsLast (fun d => d.Sets f k ∧ d.Aims path) p.directives d →
      Decides p path k f (some d.value)
  | general {d : Directive} : (∀ d ∈ p.directives, ¬ (d.Sets f k ∧ d.Aims path)) →
      IsLast (fun d => d.Sets f k ∧ d.isGlobal) p.directives d → Decides p path k f (some d.value)
  | default : (∀ d ∈ p.directives, ¬ (d.Sets f k ∧ d.Aims path)) →
      (∀ d ∈ p.directives, ¬ (d.Sets f k ∧ d.isGlobal)) → Decides p path k f (Style.default.value? f)

theorem Decides.value?_style {f : Field} {v : Option DirectiveValue} (h : p.Decides path k f v) :
    (p.style path k).value? f = v := by
  have haccepts : ∀ d ∈ p.directives.filter (·.isGeneral k) ++ p.directives.filter (·.isAimed path k),
      d.kind.accepts d.value := by
    intro d hd
    rcases List.mem_append.mp hd with hd | hd <;>
      exact Directive.accepts_of_offence? (offence?_of_mem (List.mem_filter.mp hd).1)
  rw [style_eq]
  cases h with
  | aimed hlast =>
    exact ((hlast.filter Directive.sets_aims_iff).of_append_right _).value?_foldl haccepts
  | general haimed hlast =>
    have hlast := hlast.filter Directive.sets_isGlobal_iff
    exact (hlast.of_append_left (forall_field_ne haimed Directive.sets_aims_iff)).value?_foldl haccepts
  | default haimed hgeneral =>
    refine Style.value?_foldl_of_forall_ne haccepts (List.forall_mem_append.mpr ⟨?_, ?_⟩)
    · exact forall_field_ne hgeneral Directive.sets_isGlobal_iff
    · exact forall_field_ne haimed Directive.sets_aims_iff

theorem exists_decides (p : Program) (path : Path) (k : InstructionKind) (f : Field) :
    ∃ v, p.Decides path k f v := by
  rcases IsLast.exists_or (fun d => d.Sets f k ∧ d.Aims path) p.directives with ⟨d, hd⟩ | hnone
  · exact ⟨_, .aimed hd⟩
  · rcases IsLast.exists_or (fun d => d.Sets f k ∧ d.isGlobal) p.directives with ⟨d, hd⟩ | hnone'
    · exact ⟨_, .general hnone hd⟩
    · exact ⟨_, .default hnone hnone'⟩

theorem value?_style_iff {f : Field} {v : Option DirectiveValue} :
    (p.style path k).value? f = v ↔ p.Decides path k f v := by
  constructor
  · rintro rfl
    obtain ⟨v, hv⟩ := exists_decides p path k f
    rwa [hv.value?_style]
  · exact Decides.value?_style

end Program

/-! ## Changes without effect -/

/-- A change of a list of directives that makes no difference to the instructions of kind `k` at `path`. To move
a directive that does not concern them is to remove it and to add it elsewhere. -/
inductive Directive.Rearranges (path : Path) (k : InstructionKind) :
    List Directive → List Directive → Prop where
  | add (as bs : List Directive) {d : Directive} : ¬ d.Concerns path k →
      Rearranges path k (as ++ bs) (as ++ d :: bs)
  | remove (as bs : List Directive) {d : Directive} : ¬ d.Concerns path k →
      Rearranges path k (as ++ d :: bs) (as ++ bs)
  /-- A directive that is aimed goes behind one that is not. -/
  | later (as bs : List Directive) {d e : Directive} : d.Aims path → e.isGlobal →
      Rearranges path k (as ++ d :: e :: bs) (as ++ e :: d :: bs)
  | earlier (as bs : List Directive) {d e : Directive} : d.Aims path → e.isGlobal →
      Rearranges path k (as ++ e :: d :: bs) (as ++ d :: e :: bs)
  /-- The index is spelled in another way, or the directive stands on another line. -/
  | respell (as bs : List Directive) {d e : Directive} {q : Path} : d.Aims q → e.Aims q →
      d.kind = e.kind → d.value = e.value → Rearranges path k (as ++ d :: bs) (as ++ e :: bs)

namespace Directive

def settings (test : Directive → Bool) (ds : List Directive) : List (DirectiveKind × DirectiveValue) :=
  (ds.filter test).map fun d => (d.kind, d.value)

variable {test : Directive → Bool}

theorem settings_skip (hd : test d = false) (as bs : List Directive) :
    settings test (as ++ d :: bs) = settings test (as ++ bs) := by
  simp [settings, hd]

theorem settings_swap (h : test d = false ∨ test e = false) (as bs : List Directive) :
    settings test (as ++ d :: e :: bs) = settings test (as ++ e :: d :: bs) := by
  rcases h with h | h <;> simp [settings, List.filter_cons, h]

theorem settings_replace (h : test d = test e) (hkind : d.kind = e.kind) (hvalue : d.value = e.value)
    (as bs : List Directive) : settings test (as ++ d :: bs) = settings test (as ++ e :: bs) := by
  cases htest : test e <;> simp [settings, h, htest, hkind, hvalue]

/-- A change without effect leaves what the general directives set and what the aimed ones do. -/
theorem Rearranges.settings_eq (h : Rearranges path k ds es) :
    settings (·.isGeneral k) ds = settings (·.isGeneral k) es ∧
      settings (·.isAimed path k) ds = settings (·.isAimed path k) es := by
  cases h with
  | add as bs hd =>
    rw [concerns_iff, not_or, Bool.not_eq_true, Bool.not_eq_true] at hd
    exact ⟨(settings_skip hd.1 as bs).symm, (settings_skip hd.2 as bs).symm⟩
  | remove as bs hd =>
    rw [concerns_iff, not_or, Bool.not_eq_true, Bool.not_eq_true] at hd
    exact ⟨settings_skip hd.1 as bs, settings_skip hd.2 as bs⟩
  | later as bs hd he =>
    exact ⟨settings_swap (.inl (hd.isGeneral_eq_false k)) as bs,
      settings_swap (.inr (isAimed_eq_false he path k)) as bs⟩
  | earlier as bs hd he =>
    exact ⟨settings_swap (.inr (hd.isGeneral_eq_false k)) as bs,
      settings_swap (.inl (isAimed_eq_false he path k)) as bs⟩
  | @respell as bs d e q hd he hkind hvalue =>
    have hgeneral : d.isGeneral k = e.isGeneral k := by
      rw [hd.isGeneral_eq_false, he.isGeneral_eq_false]
    have haimed : d.isAimed path k = e.isAimed path k := by
      rw [isAimed, isAimed, target?_eq_some_iff.mpr hd, target?_eq_some_iff.mpr he, hkind]
    exact ⟨settings_replace hgeneral hkind hvalue as bs, settings_replace haimed hkind hvalue as bs⟩

open Relation in
theorem settings_eq_of_reflTransGen (h : ReflTransGen (Rearranges path k) ds es) :
    settings (·.isGeneral k) ds = settings (·.isGeneral k) es ∧
      settings (·.isAimed path k) ds = settings (·.isAimed path k) es := by
  induction h with
  | refl => exact ⟨rfl, rfl⟩
  | tail _ hstep ih => exact ⟨ih.1.trans hstep.settings_eq.1, ih.2.trans hstep.settings_eq.2⟩

end Directive

namespace Program

theorem style_eq_foldl (p : Program) (path : Path) (k : InstructionKind) : p.style path k =
    (Directive.settings (·.isGeneral k) p.directives ++
      Directive.settings (·.isAimed path k) p.directives).foldl
        (fun s setting => s.apply ⟨setting.1, setting.2, "", 0⟩) .default := by
  rw [Directive.settings, Directive.settings, ← List.map_append, List.foldl_map, style_eq]
  rfl

open Relation in
/-- What the style of an instruction of kind `k` at `path` is. Each directive is for the whole program or aimed
at just one path, for which a zero in front of a position makes no difference. A field has the value of the last
directive for it that is aimed at the path, or else of the last one for the whole program, or else its default.
And changes of the directives that do not concern the instruction do not change its style. -/
theorem style_decided (p : Program) (path : Path) (k : InstructionKind) :
    (∀ d ∈ p.directives, (d.isGlobal ∧ ∀ q, ¬ d.Aims q) ∨ ¬ d.isGlobal ∧ ∃! q, d.Aims q) ∧
    (∀ d : Directive, d.index = "01" ∨ d.index = "1" → ∀ q, d.Aims q ↔ q = ⟨[1]⟩) ∧
    (∀ f v, (p.style path k).value? f = v ↔ p.Decides path k f v) ∧
    ∀ q : Program, ReflTransGen (Directive.Rearranges path k) p.directives q.directives →
      q.style path k = p.style path k := by
  refine ⟨fun d hd => Directive.isGlobal_or_aims (offence?_of_mem hd), fun d hd => Directive.aims_of_index hd,
    fun f v => value?_style_iff, fun q hq => ?_⟩
  obtain ⟨hgeneral, haimed⟩ := Directive.settings_eq_of_reflTransGen hq
  rw [style_eq_foldl, style_eq_foldl, hgeneral, haimed]

open Relation in
/-- A color that is aimed at an instruction holds against a later one for the whole program. Its index may be
spelled in another way, and it may go behind the other one. -/
theorem style_decided_color : ∃ p q : Program,
    p.directives = [⟨.style .color .bloque, .hexColor "HAA0000", "01", 1⟩,
      ⟨.style .fontSize .si, .size 18, "1", 2⟩, ⟨.style .color .bloque, .hexColor "H0000BB", "", 3⟩] ∧
    q.directives = [⟨.style .color .bloque, .hexColor "H0000BB", "", 3⟩,
      ⟨.style .color .bloque, .hexColor "HAA0000", "1", 1⟩] ∧
    ReflTransGen (Directive.Rearranges ⟨[1]⟩ .assign) p.directives q.directives ∧
    q.style ⟨[1]⟩ .assign = p.style ⟨[1]⟩ .assign ∧
    (p.style ⟨[1]⟩ .assign).value? (.property .color) = some (.hexColor "HAA0000") := by
  let general : Directive := ⟨.style .color .bloque, .hexColor "H0000BB", "", 3⟩
  let size : Directive := ⟨.style .fontSize .si, .size 18, "1", 2⟩
  let color (index : String) : Directive := ⟨.style .color .bloque, .hexColor "HAA0000", index, 1⟩
  let p : Program := ⟨[], [color "01", size, general], [some ⟨[1]⟩, some ⟨[1]⟩, none], rfl,
    checkDirectivesFrom_eq_ok_iff.mpr (by decide +kernel)⟩
  let q : Program := ⟨[], [general, color "1"], [none, some ⟨[1]⟩], rfl,
    checkDirectivesFrom_eq_ok_iff.mpr (by decide +kernel)⟩
  obtain ⟨-, haims, hvalue, hchange⟩ := style_decided p ⟨[1]⟩ .assign
  have haims01 : (color "01").Aims ⟨[1]⟩ := (haims _ (.inl rfl) _).mpr rfl
  have haims1 : (color "1").Aims ⟨[1]⟩ := (haims _ (.inr rfl) _).mpr rfl
  have hsize : ¬ size.Concerns ⟨[1]⟩ .assign := fun h => absurd h.1 (by decide)
  have hpq : ReflTransGen (Directive.Rearranges ⟨[1]⟩ .assign) p.directives q.directives := by
    refine .head (.respell [] [size, general] haims01 haims1 rfl rfl) ?_
    refine .head (.remove [color "1"] [general] hsize) ?_
    exact .head (.later [] [] haims1 rfl) .refl
  refine ⟨p, q, rfl, rfl, hpq, hchange q hpq, (hvalue _ _).mpr (.aimed (d := color "01") ?_)⟩
  refine ⟨[], [size, general], rfl, ⟨⟨rfl, rfl⟩, haims01⟩, fun e he h => ?_⟩
  rcases List.mem_cons.mp he with rfl | he
  · exact absurd h.1.1 (by decide)
  · rw [List.mem_singleton.mp he] at h
    exact h.2.not_isGlobal rfl

end Program
end Pseudocode
