import Pseudocode.Proofs.Cursor.Expression

/-! # Walks through directives

The texts of a directive are cut out of the tokens between two places of the cursor.
-/

namespace Pseudocode

variable {ts us : List Token} {t : Token} {allowed bound fuel : Nat} {c : Cursor}

namespace Walk

variable (ts)

def number : Walk Float := do
  match (← peek? ts).bind (WrittenValue.number? ·.kind) with
  | some d =>
    pass
    return d
  | none => refuseToken ts .number

def signed : Walk Float := part do
  if (← peek? ts).map Token.kind = some (.symbol .minus) then
    pass
    let d ← number ts
    return -d
  else
    number ts

/-- Goes on through the numbers that follow commas; those found so far are in reverse order. -/
def moreNumbers : Nat → List Float → Walk (List Float)
  | 0, _ => throw .outOfFuel
  | fuel + 1, ds => do
    if (← peek? ts).map Token.kind = some (.symbol .comma) then
      pass
      let d ← signed ts
      moreNumbers fuel (d :: ds)
    else
      return ds

def constant (line : Nat) (e : Expr) : Walk WrittenValue :=
  match e.eval .empty with
  | .error error => refuse (.invalidDirective line (.notEvaluable e error))
  | .ok v =>
    match v.toFloat? with
    | some d => return .numbers [d]
    | none => refuse (.invalidDirective line (.notANumber e))

def value (fuel line : Nat) : Walk WrittenValue := part do
  match (← peek? ts).map Token.kind with
  | some (.identifier s) =>
    pass
    return .word s
  | some (.text s) =>
    pass
    return .text s
  | some (.symbol .leftParen) =>
    let e ← expression ts fuel
    constant line e
  | some (.integer _) | some (.decimal _) | some (.symbol .minus) =>
    let first ← signed ts
    let ds ← moreNumbers ts fuel [first]
    return .numbers ds.reverse
  | _ => refuse (.invalidDirective line .missingValue)

def kind : Walk DirectiveKind := do
  match (← peek? ts).map Token.kind with
  | some (.identifier name) =>
    pass
    return .ofName name
  | _ => refuseToken ts .directiveKind

def directive (fuel : Nat) : Walk Directive := part do
  let line ← line ts
  pass
  let kind ← kind ts
  let start ← get
  let written ← value ts fuel line
  let text ← lexemesSince ts start.position
  match kind.interpret text written with
  | .error problem => refuse (.invalidDirective line problem)
  | .ok value =>
    let start ← get
    passWhile ts Directive.onLine fuel
    let index ← lexemesSince ts start.position
    return ⟨kind, value, index, line⟩

variable {ts}

theorem does_number (hc : c.At ts us) :
    Does ts (number ts) c (2 * c.position + 2) 0
      (Parsed.reached c.directives <$> WrittenValue.readNumber (lastSpan ts) us) := by
  refine .peek hc ?_
  cases us with
  | nil => exact .refuseToken hc (Nat.le_refl _)
  | cons t us =>
    rw [List.head?_cons, Option.bind_some, WrittenValue.readNumber]
    cases WrittenValue.number? t.kind with
    | some d => exact .pass hc.lt (.pure hc.passed rfl (Nat.le_refl _))
    | none => exact .refuseToken hc (Nat.le_refl _)

theorem does_signed (hc : c.At ts us) :
    Does ts (signed ts) c (2 * c.position + 2) 0
      (Parsed.reached c.directives <$> WrittenValue.readSigned (lastSpan ts) us) := by
  refine .part (.peek (hc.note _) ?_) hc.le (by omega)
  cases us with
  | nil => exact does_number (hc.note _)
  | cons t us =>
    rw [List.head?_cons, Option.map_some, WrittenValue.readSigned]
    by_cases ht : t.kind = .symbol .minus
    · rw [if_pos ht, if_pos (congrArg some ht), Except.map_map_eq_bind]
      refine .pass hc.lt (.read ((does_number (hc.note _).passed).mono (Nat.le_add_right _ 2)) ?_)
      intro d c' hat hds _
      exact .pure hat hds (Nat.le_refl _)
    · rw [if_neg ht, if_neg fun h => ht (Option.some.inj h)]
      exact does_number (hc.note _)

theorem does_moreNumbers (ds : Parsed (List Float) us) (hc : c.At ts ds.rest) (hf : ds.rest.length < fuel) :
    Does ts (moreNumbers ts fuel ds.value) c (2 * c.position) 0
      (Parsed.reached c.directives <$> WrittenValue.readMore (lastSpan ts) ds) := by
  fun_induction WrittenValue.readMore (lastSpan ts) ds generalizing c fuel with
  | case1 ds h =>
    obtain ⟨fuel, rfl⟩ := Nat.exists_eq_succ_of_ne_zero (Nat.ne_zero_of_lt hf)
    refine .peek hc ?_
    rw [h]
    exact .pure (h ▸ hc) rfl (Nat.le_refl _)
  | case2 ds t rest h ht ih =>
    obtain ⟨fuel, rfl⟩ := Nat.exists_eq_succ_of_ne_zero (Nat.ne_zero_of_lt hf)
    refine .peek hc ?_
    rw [h, List.head?_cons, Option.map_some, if_pos (congrArg some ht), map_bind]
    rw [h, List.length_cons] at hf
    rw [h] at hc
    refine .pass hc.lt (.read ((does_signed hc.passed).mono (Nat.le_add_right _ 4)) ?_)
    intro d c' hat hds _
    have hlt := d.shorter
    have hmore := ih d hat (show d.rest.length < fuel by omega)
    rwa [hds] at hmore
  | case3 ds t rest h ht =>
    obtain ⟨fuel, rfl⟩ := Nat.exists_eq_succ_of_ne_zero (Nat.ne_zero_of_lt hf)
    refine .peek hc ?_
    rw [h, List.head?_cons, Option.map_some, if_neg fun h => ht (Option.some.inj h)]
    exact .pure hc rfl (Nat.le_refl _)

theorem does_numbers (hc : c.At ts us) (hf : us.length ≤ fuel) :
    Does ts (do return .numbers (← moreNumbers ts fuel [← signed ts]).reverse : Walk WrittenValue) c
      (2 * c.position + 2) 0
      (Parsed.reached c.directives <$> WrittenValue.readNumbers (lastSpan ts) us) := by
  rw [WrittenValue.readNumbers]
  simp only [map_bind]
  refine .read (does_signed hc) ?_
  intro first c' hat hds _
  have hlt := first.shorter
  refine .read (does_moreNumbers (first.map ([·])) hat (show first.rest.length < fuel by omega)) ?_
  intro ds c'' hat' hds' _
  exact .pure hat' (hds'.trans hds) (Nat.le_refl _)

theorem does_constant (line : Nat) (ho : c.operators = 0) (hc : c.At ts us) (hf : us.length < fuel) :
    Does ts (do constant line (← expression ts fuel)) c (2 * c.position + 2) 0
      (Parsed.reached c.directives <$> WrittenValue.readConstant (lastSpan ts) line us) := by
  rw [WrittenValue.readConstant, map_bind]
  refine .read (does_expression hc ho hf) ?_
  intro e c' hat hds _
  show Does ts (constant line e.value) _ _ _ _
  rw [constant]
  cases e.value.eval .empty with
  | error error => exact .refuse hat (Nat.le_add_right _ _)
  | ok v =>
    cases hd : v.toFloat? with
    | some d =>
      simp only [hd]
      exact .pure hat hds (Nat.le_refl _)
    | none =>
      simp only [hd]
      exact .refuse hat (Nat.le_add_right _ _)

theorem does_value (line : Nat) (ho : c.operators = 0) (hc : c.At ts us) (hf : us.length < fuel) :
    Does ts (value ts fuel line) c (2 * c.position + 2) 0
      (Parsed.reached c.directives <$> WrittenValue.read (lastSpan ts) line us) := by
  refine .part (.peek (hc.note _) ?_) hc.le (by omega)
  cases us with
  | nil => exact .refuse (hc.note _) (Nat.le_refl _)
  | cons t us =>
    rw [List.head?_cons, Option.map_some, WrittenValue.read]
    cases t.kind with
    | identifier s => exact .pass hc.lt (.pure (hc.note _).passed rfl (Nat.le_refl _))
    | text s => exact .pass hc.lt (.pure (hc.note _).passed rfl (Nat.le_refl _))
    | integer n => exact does_numbers (hc.note _) (Nat.le_of_lt hf)
    | decimal d => exact does_numbers (hc.note _) (Nat.le_of_lt hf)
    | symbol s =>
      cases s with
      | leftParen => exact does_constant line ho (hc.note _) hf
      | minus => exact does_numbers (hc.note _) (Nat.le_of_lt hf)
      | _ => exact .refuse (hc.note _) (Nat.le_refl _)
    | _ => exact .refuse (hc.note _) (Nat.le_refl _)

theorem does_kind (hc : c.At ts us) :
    Does ts (kind ts) c (2 * c.position + 2) 0
      (Parsed.reached c.directives <$> Directive.readKind (lastSpan ts) us) := by
  refine .peek hc ?_
  cases us with
  | nil => exact .refuseToken hc (Nat.le_refl _)
  | cons t us =>
    rw [List.head?_cons, Option.map_some, Directive.readKind]
    cases ht : t.kind with
    | identifier name => exact .pass hc.lt (.pure hc.passed rfl (Nat.le_refl _))
    | _ => exact .refuseToken hc (Nat.le_refl _)

theorem take_length_sub_dropWhile {α : Type} (p : α → Bool) (l : List α) :
    l.take (l.length - (l.dropWhile p).length) = l.takeWhile p := by
  have hlength := congrArg List.length (List.takeWhile_append_dropWhile (p := p) (l := l))
  rw [List.length_append] at hlength
  rw [List.prefix_iff_eq_take.mp (List.takeWhile_prefix p), ← hlength, Nat.add_sub_cancel]

theorem does_directive (hc : c.At ts (t :: us)) (ho : c.operators = 0) (hf : us.length < fuel) :
    Does ts (directive ts fuel) c (2 * c.position + 2) 0
      (Parsed.reached c.directives <$> Directive.read (lastSpan ts) t.span.line us) := by
  rw [Directive.read]
  simp only [map_bind]
  refine .part (.line (hc.note _) (.pass hc.lt ?_)) hc.le (by omega)
  refine .read ((does_kind (hc.note _).passed).mono (Nat.le_add_right _ 2)) ?_
  intro kind c₁ hat₁ hds₁ hg₁
  have hlt₁ := kind.shorter
  have hvalue := does_value t.span.line (hg₁.operators.trans ho) hat₁ (Nat.lt_trans hlt₁ hf)
  refine .get (.read (hvalue.mono (Nat.le_add_right _ 2)) ?_)
  intro written c₂ hat₂ hds₂ hg₂
  refine .lexemes hat₁ hat₂ ?_ ?_
  · have := hg₂.range
    omega
  let text := Directive.lexemes (kind.rest.take (kind.rest.length - written.rest.length))
  show Does ts (match kind.value.interpret text written.value with | .error _ => _ | .ok _ => _) _ _ _ _
  cases hv : kind.value.interpret text written.value with
  | error problem => exact .refuse hat₂ (Nat.le_add_right _ _)
  | ok value =>
    have hlt₂ := written.shorter
    refine .get (.passWhile 0 hat₂ (show written.rest.length < fuel by omega) ?_)
    intro c₃ hat₃ hds₃ hg₃
    refine .lexemes hat₂ hat₃ ?_ ?_
    · have := hg₃.range
      omega
    · rw [take_length_sub_dropWhile]
      exact .pure hat₃ (hds₃.trans (hds₂.trans hds₁)) (Nat.le_refl _)

end Walk
end Pseudocode
