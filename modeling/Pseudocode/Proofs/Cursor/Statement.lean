import Pseudocode.Proofs.Cursor.Directive
import Pseudocode.Proofs.Instruction.Reading

/-! # Walks through statements

The keyword that closes a block is passed without a look at it: a block is only come to the end of before the
keyword that closes it.
-/

namespace Pseudocode

variable {ts us : List Token} {t : Token} {d allowed fuel : Nat} {c : Cursor}

namespace Walk

abbrev Blocks := (kind : BlockKind) → (line : Nat) → Walk (List Instruction)

section

variable (ts)

def lineEnd : Walk Unit := do
  match (← peek? ts).map Token.kind with
  | some .newline => pass
  | none | some .endOfInput => return ()
  | _ => refuseToken ts .lineEnd

def branch (inner : Blocks) (fuel line : Nat) : Walk Instruction := part do
  pass
  let condition ← expression ts fuel
  lineEnd ts
  let body ← inner .si line
  if (← peek? ts).map Token.kind = some (.keyword .sino) then
    pass
    lineEnd ts
    let otherwise ← inner .sino line
    pass
    return .branch condition body (some otherwise) line
  else
    pass
    return .branch condition body none line

def loop (inner : Blocks) (fuel line : Nat) : Walk Instruction := do
  pass
  let condition ← expression ts fuel
  lineEnd ts
  let body ← inner .mientras line
  pass
  return .loop condition body line

def assignment (fuel : Nat) (name : String) (line : Nat) : Walk Instruction := do
  pass
  expect ts (.symbol .equal) .assignment
  let e ← expression ts fuel
  return .assign name e line

def display (fuel line : Nat) : Walk Instruction := do
  pass
  let e ← expression ts fuel
  return .display e line

def input (line : Nat) : Walk Instruction := do
  pass
  match (← peek? ts).map Token.kind with
  | some (.identifier name) =>
    pass
    return .input name line
  | _ => refuseToken ts .inputVariable

def statement (inner : Blocks) (fuel : Nat) : Walk Instruction := part do
  let line ← line ts
  match (← peek? ts).map Token.kind with
  | some (.identifier name) => assignment ts fuel name line
  | some (.keyword .si) => branch ts inner fuel line
  | some (.keyword .mientras) => loop ts inner fuel line
  | some (.keyword .mostrar) => display ts fuel line
  | some (.keyword .leer) => input ts line
  | _ => refuseToken ts .statement

end

/-! ## Lines and blocks -/

theorem does_lineEnd (hc : c.At ts us) :
    Does ts (lineEnd ts) c (2 * c.position) 0
      ((fun r => ⟨(), c.directives, r.val⟩) <$> endLine (lastSpan ts) us) := by
  refine .peek hc ?_
  cases us with
  | nil => exact .pure hc rfl (Nat.le_refl _)
  | cons t us =>
    rw [List.head?_cons, Option.map_some, endLine]
    cases t.kind with
    | newline => exact (does_pass hc).mono (Nat.le_add_right _ 2)
    | endOfInput => exact .pure hc rfl (Nat.le_refl _)
    | _ => exact .refuseToken hc (Nat.le_add_right _ 2)

end Walk

def Section.reached (body : List Instruction) (ds : List Directive) (s : Section us) :
    Reached (List Instruction) :=
  ⟨body ++ s.content.instructions, ds ++ s.content.directives, s.rest⟩

def Statement.reached (ds : List Directive) (p : Parsed Statement us) : Reached Instruction :=
  ⟨p.value.instruction, ds ++ p.value.directives, p.rest⟩

theorem Statement.reached_map_ofTail {ds : List Directive} {x : Except SyntaxError (Parsed Statement us)} :
    reached ds <$> x.map (Parsed.ofTail (t := t)) = reached ds <$> x := by
  cases x <;> rfl

def Statement.readClosed (final : Span) (inner : SectionReader) (kind : BlockKind) (line : Nat)
    (us : List Token) : Except SyntaxError (Section us × Parsed (Content × Keyword) us) := do
  let s ← inner line us
  let block ← closeBlock final kind line s
  return (s, block)

namespace Walk

/-- The blocks are walked through as `read` reads them, if there are fewer than `bound` tokens and `allowed`
more blocks may be opened. -/
def Blocks.Follows (ts : List Token) (allowed bound : Nat) (inner : Blocks) (read : SectionReader) : Prop :=
  ∀ c us kind line, c.At ts us → c.operators = 0 → c.blocks + allowed = maxNesting → us.length < bound →
    Does ts (inner kind line) c (2 * c.position) 2
      ((fun p => p.1.reached [] c.directives) <$> Statement.readClosed (lastSpan ts) read kind line us)

variable {β : Type} {inner : Blocks} {read : SectionReader}

theorem Does.block {kind : BlockKind} {line : Nat} {k : List Instruction → Walk β}
    {f : Parsed (Content × Keyword) us → Except SyntaxError (Reached β)}
    (hinner : inner.Follows ts allowed fuel read) (hc : c.At ts us) (ho : c.operators = 0)
    (hb : c.blocks + allowed = maxNesting) (hf : us.length < fuel)
    (hk : ∀ (p : Parsed (Content × Keyword) us) (t : Token) (c' : Cursor), t.kind = .keyword p.value.2 →
      c'.At ts (t :: p.rest) → c'.directives = c.directives ++ p.value.1.directives →
      Cursor.Goes ts.length (2 * c.position) (2 * c'.position + 2) c c' →
      Does ts (k p.value.1.instructions) c' (2 * c'.position + 2) d (f p)) :
    Does ts (lineEnd ts >>= fun _ => inner kind line >>= k) c (2 * c.position) d
      (Statement.readBlock (lastSpan ts) read kind line us >>= f) := by
  have hread : (Statement.readBlock (lastSpan ts) read kind line us >>= f) =
      endLine (lastSpan ts) us >>= fun r =>
        Statement.readClosed (lastSpan ts) read kind line r.val >>= fun p =>
          f ⟨p.2.value, p.2.rest, Nat.lt_of_lt_of_le p.2.shorter r.property⟩ := by
    simp only [Statement.readBlock, Statement.readClosed, bind_assoc, pure_bind]
    rfl
  rw [hread]
  refine (does_lineEnd hc).bind ?_
  intro r c₁ _ hat₁ hds₁ hg₁
  refine Does.bind (hinner c₁ r.val kind line hat₁ (hg₁.operators.trans ho) (hg₁.blocks ▸ hb)
    (Nat.lt_of_le_of_lt r.property hf)) ?_
  rintro ⟨s, block⟩ c₂ hclosed hat₂ hds₂ hg₂
  obtain ⟨s', hs', hclosed⟩ := Except.bind_eq_ok_iff.mp hclosed
  obtain ⟨block', hblock, hclosed⟩ := Except.bind_eq_ok_iff.mp hclosed
  cases hclosed
  -- the section ends before the keyword that closes it, so this token is there to be passed
  obtain ⟨-, hcontent, t, hrest, ht⟩ :=
    (Statement.reads_closeBlock (c := block.value.1) (k := block.value.2)).mp (reads_of_eq hblock)
  replace hat₂ : c₂.At ts (t :: block.rest) := hrest ▸ hat₂
  have hbody : s.content.instructions = block.value.1.instructions := by rw [hcontent]
  show Does ts (k s.content.instructions) _ _ _ _
  rw [hbody]
  refine hk _ t c₂ ht hat₂ ?_ (hg₁.trans hg₂)
  rw [hds₂, Section.reached, hcontent, hds₁]

/-! ## Statements -/

theorem does_branch {line : Nat} (hinner : inner.Follows ts allowed fuel read) (hc : c.At ts (t :: us))
    (ho : c.operators = 0) (hb : c.blocks + allowed = maxNesting) (hf : us.length < fuel) :
    Does ts (branch ts inner fuel line) c (2 * c.position + 2) 0
      (Statement.reached c.directives <$> Statement.readBranch (lastSpan ts) read line us) := by
  rw [Statement.readBranch]
  simp only [map_bind]
  refine .part (.pass hc.lt ?_) hc.le (by omega)
  refine .read ((does_expression (hc.note _).passed ho hf).mono (Nat.le_add_right _ 2)) ?_
  intro condition c₁ hat₁ hds₁ hg₁
  have hlt₁ := condition.shorter
  refine .block hinner hat₁ (hg₁.operators.trans ho) (hg₁.blocks ▸ hb) (by omega) ?_
  intro body t₂ c₂ ht₂ hat₂ hds₂ hg₂
  have hlt₂ := body.shorter
  refine .peek hat₂ ?_
  rw [List.head?_cons, Option.map_some, ht₂]
  by_cases hsino : body.value.2 = .sino
  · rw [if_pos hsino, if_pos (by rw [hsino]), map_bind]
    refine .pass hat₂.lt (.block hinner hat₂.passed (hg₂.operators.trans (hg₁.operators.trans ho))
      (hg₂.blocks ▸ hg₁.blocks ▸ hb) (show body.rest.length < fuel by omega) ?_)
    intro otherwise t₃ c₃ _ hat₃ hds₃ _
    refine .pass hat₃.lt (.pure hat₃.passed ?_ (Nat.le_refl _))
    rw [Cursor.passed_directives, hds₃, Cursor.passed_directives, hds₂, hds₁, List.append_assoc]
    rfl
  · rw [if_neg hsino, if_neg (by simpa using hsino)]
    refine .pass hat₂.lt (.pure hat₂.passed ?_ (Nat.le_refl _))
    rw [Cursor.passed_directives, hds₂, hds₁]
    rfl

theorem does_loop {line : Nat} (hinner : inner.Follows ts allowed fuel read) (hc : c.At ts (t :: us))
    (ho : c.operators = 0) (hb : c.blocks + allowed = maxNesting) (hf : us.length < fuel) :
    Does ts (loop ts inner fuel line) c (2 * c.position + 2) 0
      (Statement.reached c.directives <$> Statement.readLoop (lastSpan ts) read line us) := by
  rw [Statement.readLoop]
  simp only [map_bind]
  refine .pass hc.lt (.read ((does_expression hc.passed ho hf).mono (Nat.le_add_right _ 2)) ?_)
  intro condition c₁ hat₁ hds₁ hg₁
  have hlt₁ := condition.shorter
  refine .block hinner hat₁ (hg₁.operators.trans ho) (hg₁.blocks ▸ hb) (by omega) ?_
  intro body t₂ c₂ _ hat₂ hds₂ _
  refine .pass hat₂.lt (.pure hat₂.passed ?_ (Nat.le_refl _))
  rw [Cursor.passed_directives, hds₂, hds₁]
  rfl

theorem does_assignment {name : String} {line : Nat} (hc : c.At ts (t :: us)) (ho : c.operators = 0)
    (hf : us.length < fuel) :
    Does ts (assignment ts fuel name line) c (2 * c.position + 2) 0
      (Statement.reached c.directives <$> Statement.readAssign (lastSpan ts) name line us) := by
  rw [Statement.readAssign]
  simp only [map_bind]
  refine .pass hc.lt (.read ((does_expect hc.passed).mono (Nat.le_add_right _ 2)) ?_)
  intro eq c₁ hat₁ hds₁ hg₁
  have hlt₁ := eq.shorter
  refine .read ((does_expression hat₁ (hg₁.operators.trans ho) (by omega)).mono (Nat.le_add_right _ 2)) ?_
  intro e c₂ hat₂ hds₂ _
  refine .pure hat₂ ?_ (Nat.le_refl _)
  rw [hds₂, hds₁]
  exact (List.append_nil _).symm

theorem does_display {line : Nat} (hc : c.At ts (t :: us)) (ho : c.operators = 0) (hf : us.length < fuel) :
    Does ts (display ts fuel line) c (2 * c.position + 2) 0
      (Statement.reached c.directives <$> Statement.readDisplay (lastSpan ts) line us) := by
  rw [Statement.readDisplay, map_bind]
  refine .pass hc.lt (.read ((does_expression hc.passed ho hf).mono (Nat.le_add_right _ 2)) ?_)
  intro e c₁ hat₁ hds₁ _
  refine .pure hat₁ ?_ (Nat.le_refl _)
  rw [hds₁]
  exact (List.append_nil _).symm

theorem does_input {line : Nat} (hc : c.At ts (t :: us)) :
    Does ts (input ts line) c (2 * c.position + 2) 0
      (Statement.reached c.directives <$> Statement.readInput (lastSpan ts) line us) := by
  refine .pass hc.lt (.peek hc.passed ?_)
  cases us with
  | nil => exact .refuseToken hc.passed (Nat.le_add_right _ 2)
  | cons t us =>
    rw [List.head?_cons, Option.map_some, Statement.readInput]
    cases t.kind with
    | identifier name =>
      exact .pass hc.passed.lt (.pure hc.passed.passed (List.append_nil _).symm (Nat.le_add_right _ 2))
    | _ => exact .refuseToken hc.passed (Nat.le_add_right _ 2)

theorem does_statement (hinner : inner.Follows ts allowed fuel read) (hc : c.At ts (t :: us))
    (ho : c.operators = 0) (hb : c.blocks + allowed = maxNesting) (hf : us.length < fuel) :
    Does ts (statement ts inner fuel) c (2 * c.position + 2) 0
      (Statement.reached c.directives <$> Statement.read (lastSpan ts) read (t :: us)) := by
  refine .part (.line (hc.note _) (.peek (hc.note _) ?_)) hc.le (by omega)
  rw [List.head?_cons, Option.map_some, Statement.read]
  cases t.kind with
  | identifier name =>
    simp only [Statement.reached_map_ofTail]
    exact does_assignment (hc.note _) ho hf
  | keyword k =>
    cases k with
    | si =>
      simp only [Statement.reached_map_ofTail]
      exact does_branch hinner (hc.note _) ho hb hf
    | mientras =>
      simp only [Statement.reached_map_ofTail]
      exact does_loop hinner (hc.note _) ho hb hf
    | mostrar =>
      simp only [Statement.reached_map_ofTail]
      exact does_display (hc.note _) ho hf
    | leer =>
      simp only [Statement.reached_map_ofTail]
      exact does_input (hc.note _)
    | _ => exact .refuseToken (hc.note _) (Nat.le_refl _)
  | _ => exact .refuseToken (hc.note _) (Nat.le_refl _)

end Walk
end Pseudocode
