import Mathlib.Data.List.Perm.Subperm
import Pseudocode.Proofs.Cursor.Statement

/-! # Walks through programs

A program is walked through line by line, and every line but the last takes a token.
-/

namespace Pseudocode

variable {ts us : List Token} {t : Token} {allowed fuel : Nat} {c : Cursor} {final : Span}

/-- The block that is open, with the line of the statement that it is in; none outside of all blocks. -/
abbrev Opened := Option (BlockKind × Nat)

namespace Cursor

def found (c : Cursor) (d : Directive) : Cursor :=
  { c with directives := c.directives ++ [d] }

end Cursor

namespace Walk

section

variable (ts)

def found (d : Directive) : Walk Unit :=
  modify (·.found d)

def finish (opened : Opened) (body : List Instruction) : Walk (List Instruction) := do
  match (← peek? ts).map Token.kind, opened with
  | none, none | some .endOfInput, none => return body
  | none, some (kind, line) | some .endOfInput, some (kind, line) => refuse (.unterminatedBlock line kind)
  | some (.keyword k), some (kind, _) => if kind.closes k then return body else refuseToken ts .statement
  | _, _ => refuseToken ts .statement

/-- Walks through what a line holds, and through what follows it; `inner` walks through the blocks in it, and
`next` through the lines after it. -/
def item (inner : Blocks) (next : List Instruction → Walk (List Instruction)) (fuel : Nat) (opened : Opened)
    (body : List Instruction) : Walk (List Instruction) := do
  let token ← peek? ts
  if token.all Section.isEnd then
    finish ts opened body
  else if token.map Token.kind = some .directive then
    let d ← directive ts fuel
    found d
    lineEnd ts
    next body
  else
    let i ← statement ts inner fuel
    lineEnd ts
    next (body ++ [i])

def lines : Nat → Opened → List Instruction → Walk (List Instruction)
  | 0, _, _ => throw .outOfFuel
  | fuel + 1, opened, body => do
    note .line
    passWhile ts (·.kind = .newline) (fuel + 1)
    item ts (fun kind line => deeper .block line (part (lines fuel (some (kind, line)) [])))
      (lines fuel opened) fuel opened body

def block (fuel : Nat) (opened : Opened) : Walk (List Instruction) :=
  part (lines ts fuel opened [])

def program (fuel : Nat) : Walk Content := do
  let instructions ← block ts fuel none
  return ⟨instructions, (← get).directives⟩

/-- Walks through an expression at the front, and counts the tokens that it has. -/
def leadingExpression (fuel : Nat) : Walk (Expr × Nat) := do
  let e ← expression ts fuel
  return (e, (← get).position)

end

/-- What there is to say against it that a block ends before the tokens. -/
def closing (final : Span) : Opened → List Token → Except SyntaxError Unit
  | none, [] => .ok ()
  | some (kind, line), [] => .error (.unterminatedBlock line kind)
  | opened, t :: us =>
    match t.kind, opened with
    | .endOfInput, none => .ok ()
    | .endOfInput, some (kind, line) => .error (.unterminatedBlock line kind)
    | .keyword k, some (kind, _) =>
      if kind.closes k then .ok () else .error (unexpected final .statement (t :: us))
    | _, _ => .error (unexpected final .statement (t :: us))

end Walk

/-! ## Sections -/

namespace Section

variable {opened : Opened} {body : List Instruction} {ds : List Directive}

/-- What a walk through the lines of a section comes to. -/
def ended (final : Span) (opened : Opened) (body : List Instruction) (ds : List Directive) (s : Section us) :
    Except SyntaxError (Reached (List Instruction)) :=
  (fun _ => s.reached body ds) <$> Walk.closing final opened s.rest

theorem ok_consDirective_ended {d : Directive} {s : Section us} (h : us.length ≤ ts.length) :
    (.ok (s.prepend (.consDirective d) h) >>= ended final opened body ds) =
      s.ended final opened body (ds ++ [d]) := by
  show (s.prepend (.consDirective d) h).ended final opened body ds = _
  simp [ended, reached, prepend, Content.consDirective]

theorem ok_cons_ended {i : Instruction} {inner : List Directive} {s : Section us}
    (h : us.length ≤ ts.length) :
    (.ok (s.prepend (.cons i inner) h) >>= ended final opened body ds) =
      s.ended final opened (body ++ [i]) (ds ++ inner) := by
  show (s.prepend (.cons i inner) h).ended final opened body ds = _
  simp [ended, reached, prepend, Content.cons]

theorem readLines_dropWhile {inner : SectionReader} (us : List Token) :
    readLines final inner us >>= ended final opened body ds =
      readLines final inner (us.dropWhile (·.kind = .newline)) >>= ended final opened body ds := by
  induction us with
  | nil => rfl
  | cons t us ih =>
    by_cases ht : t.kind = .newline
    · rw [List.dropWhile_cons_of_pos (by simpa using ht), ← ih, readLines, if_neg (by simp [isEnd, ht]),
        if_pos ht, bind_assoc]
      rfl
    · rw [List.dropWhile_cons_of_neg (by simpa using ht)]

def reader (final : Span) : (allowed : Nat) → SectionReader
  | 0 => fun line _ => .error (.tooDeep line)
  | allowed + 1 => fun _ => read final allowed

theorem read_eq_readLines : read final allowed us = readLines final (reader final allowed) us := by
  cases allowed <;> rfl

end Section

namespace Statement

theorem map_closeBlock {α : Type} {kind : BlockKind} {line : Nat} {s : Section us} (a : α) :
    (fun _ => a) <$> closeBlock final kind line s =
      (fun _ => a) <$> Walk.closing final (some (kind, line)) s.rest := by
  obtain ⟨content, rest, hle⟩ := s
  cases rest with
  | nil => rfl
  | cons t rest =>
    simp only [closeBlock, Walk.closing]
    cases t.kind with
    | keyword k => cases h : kind.closes k <;> simp [h]
    | _ => rfl

theorem map_readClosed {read : SectionReader} {kind : BlockKind} {line : Nat} {body : List Instruction}
    {ds : List Directive} :
    (fun p => p.1.reached body ds) <$> readClosed final read kind line us =
      read line us >>= Section.ended final (some (kind, line)) body ds := by
  simp only [readClosed, map_bind, map_pure]
  congr 1
  funext s
  rw [Section.ended, ← map_closeBlock]
  rfl

end Statement

/-! ## Blocks -/

namespace Walk

variable {opened : Opened} {body : List Instruction}

theorem Does.found {β : Type} {lo d' : Nat} {k : Unit → Walk β} {s : Except SyntaxError (Reached β)}
    {d : Directive} (hc : c.position ≤ ts.length) (h : Does ts (k ()) (c.found d) lo d' s) :
    Does ts (Walk.found d >>= k) c lo d' s :=
  h.of_step ⟨hc, Nat.le_refl _, rfl, rfl, [], (List.append_nil _).symm, .nil⟩ rfl

theorem does_finish (hc : c.At ts us) :
    Does ts (finish ts opened body) c (2 * c.position + 2) 2
      (Section.ended (lastSpan ts) opened body c.directives (⟨.empty, us, Nat.le_refl _⟩ : Section us)) := by
  have hreached : (⟨.empty, us, Nat.le_refl _⟩ : Section us).reached body c.directives =
      ⟨body, c.directives, us⟩ := by
    simp [Section.reached, Content.empty]
  rw [Section.ended, hreached]
  refine .peek hc ?_
  cases us with
  | nil =>
    cases opened with
    | none => exact .pure hc rfl (Nat.le_refl _)
    | some o => exact .refuse hc (Nat.le_refl _)
  | cons t us =>
    rw [List.head?_cons, Option.map_some]
    cases opened with
    | none =>
      simp only [closing]
      cases t.kind with
      | endOfInput => exact .pure hc rfl (Nat.le_refl _)
      | _ => exact .refuseToken hc (Nat.le_refl _)
    | some o =>
      simp only [closing]
      cases t.kind with
      | endOfInput => exact .refuse hc (Nat.le_refl _)
      | keyword k =>
        show Does ts (if o.1.closes k then _ else _) _ _ _ (_ <$> if o.1.closes k then _ else _)
        by_cases hk : o.1.closes k
        · rw [if_pos hk, if_pos hk]
          exact .pure hc rfl (Nat.le_refl _)
        · rw [if_neg hk, if_neg hk]
          exact .refuseToken hc (Nat.le_refl _)
      | _ => exact .refuseToken hc (Nat.le_refl _)

/-- The lines of blocks are walked through as sections are read, with the given fuel for the tokens. -/
def LinesFollow (ts : List Token) (fuel : Nat) : Prop :=
  ∀ allowed opened body c us, c.At ts us → c.operators = 0 → c.blocks + allowed = maxNesting →
    us.length < fuel → Does ts (lines ts fuel opened body) c (2 * c.position + 1) 2
      (Section.read (lastSpan ts) allowed us >>= Section.ended (lastSpan ts) opened body c.directives)

theorem LinesFollow.blocks (h : LinesFollow ts fuel) :
    Blocks.Follows ts allowed fuel
      (fun kind line => deeper .block line (part (lines ts fuel (some (kind, line)) [])))
      (Section.reader (lastSpan ts) allowed) := by
  intro c us kind line hc ho hb hf
  cases allowed with
  | zero => exact .tooDeep hc hb (Nat.le_add_right _ 2)
  | succ allowed =>
    rw [Statement.map_readClosed]
    have hopen : c.blocks + 1 + allowed = maxNesting := by omega
    exact .deeper hc.le (Nat.ne_of_lt (show c.blocks < _ by omega))
      (.part (h allowed (some (kind, line)) [] _ us (((hc.setDepth _ _).note _).note _) ho hopen hf) hc.le
        (Nat.lt_succ_self _))

theorem LinesFollow.next (h : LinesFollow ts fuel) (opened : Opened) (body : List Instruction)
    (hc : c.At ts us) (ho : c.operators = 0) (hb : c.blocks + allowed = maxNesting) (hf : us.length < fuel) :
    Does ts (lineEnd ts >>= fun _ => lines ts fuel opened body) c (2 * c.position) 2
      (endLine (lastSpan ts) us >>= fun next =>
        Section.readLines (lastSpan ts) (Section.reader (lastSpan ts) allowed) next.val >>=
          Section.ended (lastSpan ts) opened body c.directives) := by
  refine .bind (does_lineEnd hc) ?_
  intro next c' _ hat hds hg
  have hlines := h allowed opened body c' next.val hat (hg.operators.trans ho) (hg.blocks ▸ hb)
    (Nat.lt_of_le_of_lt next.property hf)
  rw [hds, Section.read_eq_readLines] at hlines
  exact hlines.mono (Nat.le_succ _)

theorem LinesFollow.item (h : LinesFollow ts fuel) (opened : Opened) (body : List Instruction)
    (hc : c.At ts us) (ho : c.operators = 0) (hb : c.blocks + allowed = maxNesting)
    (hf : us.length ≤ fuel) (hnewline : ∀ t ∈ us.head?, t.kind ≠ .newline) :
    Does ts (Walk.item ts (fun kind line => deeper .block line (part (lines ts fuel (some (kind, line)) [])))
        (lines ts fuel opened) fuel opened body) c (2 * c.position + 2) 2
      (Section.readLines (lastSpan ts) (Section.reader (lastSpan ts) allowed) us >>=
        Section.ended (lastSpan ts) opened body c.directives) := by
  refine .peek hc ?_
  rw [Section.readLines.eq_def]
  cases us with
  | nil => exact does_finish hc
  | cons t us =>
    rw [List.head?_cons, Option.all_some, Option.map_some]
    simp only
    by_cases hend : Section.isEnd t
    · rw [if_pos hend, if_pos hend]
      exact does_finish hc
    rw [if_neg hend, if_neg hend, if_neg (hnewline t rfl)]
    by_cases hdirective : t.kind = .directive
    · rw [if_pos hdirective, if_pos (congrArg some hdirective)]
      simp only [bind_assoc, Section.ok_consDirective_ended]
      refine .read (does_directive hc ho hf) ?_
      intro d c' hat hds hg
      have hlt := d.shorter
      rw [← hds]
      exact .found hat.le (h.next opened body ⟨hat.le, hat.before⟩ (hg.operators.trans ho) (hg.blocks ▸ hb)
        (Nat.lt_trans hlt hf))
    · rw [if_neg hdirective, if_neg fun h => hdirective (Option.some.inj h)]
      simp only [bind_assoc, Section.ok_cons_ended]
      refine .bind (does_statement h.blocks hc ho hb hf) ?_
      intro p c' _ hat hds hg
      have hitem := h.next opened (body ++ [p.value.instruction]) hat (hg.operators.trans ho) (hg.blocks ▸ hb)
        (Nat.lt_of_lt_of_le p.shorter hf)
      rwa [hds] at hitem

theorem linesFollow (ts : List Token) (fuel : Nat) : LinesFollow ts fuel := by
  -- the blocks in a line and the lines after it are given the same fuel, one less than the line
  induction fuel with
  | zero => exact fun _ _ _ _ _ _ _ _ hf => absurd hf (Nat.not_lt_zero _)
  | succ fuel ih =>
    intro allowed opened body c us hc ho hb hf
    rw [Section.read_eq_readLines, Section.readLines_dropWhile]
    refine .line_start hc.le (.passWhile 2 (hc.note _) hf ?_)
    intro c' hat hds hg
    have hnewline : ∀ t ∈ (us.dropWhile fun t => decide (t.kind = .newline)).head?, t.kind ≠ .newline := by
      intro t ht
      have hnot := List.head?_dropWhile_not (fun t : Token => decide (t.kind = .newline)) us
      rw [ht] at hnot
      exact of_decide_eq_false hnot
    have hitem := ih.item opened body hat (hg.operators.trans ho) (hg.blocks ▸ hb)
      (Nat.le_trans (List.dropWhile_suffix _).length_le (Nat.le_of_lt_succ hf)) hnewline
    rwa [hds] at hitem

/-! ## Whole walks -/

theorem does_program (k : Nat) :
    Does ts (block ts (ts.length + 1 + k) none) .start 1 2
      (Section.read (lastSpan ts) maxNesting ts >>= Section.ended (lastSpan ts) none [] []) :=
  .part (linesFollow ts _ maxNesting none [] _ ts (Cursor.At.start.note _) rfl (Nat.zero_add _)
    (Nat.lt_of_lt_of_le (Nat.lt_succ_self _) (Nat.le_add_right _ _))) (Nat.zero_le _) (Nat.zero_lt_one)

end Walk

/-- The places at which a cursor has done the same thing, in the order of time. -/
def Cursor.places (c : Cursor) (move : Move) : List Nat :=
  (c.history.filter (·.move = move)).map Moment.position

/-- A cursor has been led in order over `n` tokens: it has never been past them; no two lines began at one
place, and no two descents were made at one place; and all parts have been whole. -/
structure Cursor.Orderly (n : Nat) (c : Cursor) : Prop where
  position_le : c.position ≤ n
  blocks : c.blocks = 0
  operators : c.operators = 0
  inside : ∀ m ∈ c.history, m.position ≤ n
  lines : (c.places .line).Pairwise (· < ·)
  lines_le : (c.places .line).length ≤ n + 1
  descents : (c.places .descend).Pairwise (· < ·)
  descents_le : (c.places .descend).length ≤ n
  whole : Whole c.history

/-- A walk over `ts` comes to the given answer, and the cursor is led in order. -/
def Walk.Answers {α : Type} (ts : List Token) (m : Walk α) (answer : Except SyntaxError α) : Prop :=
  ∃ c : Cursor, c.Orderly ts.length ∧ m .start =
    match answer with
    | .ok a => .ok a c
    | .error e => .error (.error e) c

namespace Cursor

theorem places_pairwise {n lo hi : Nat} {ms : List Moment} (h : Stretch n lo hi ms) (move : Move) (d : Nat)
    (hrank : ∀ m : Moment, m.move = move → m.rank? = some (2 * m.position + d)) :
    ((ms.filter (·.move = move)).map Moment.position).Pairwise (· < ·) := by
  have hranks := (List.pairwise_filterMap.mp h.ascending).filter (·.move = move)
  rw [List.pairwise_map]
  refine hranks.imp_of_mem fun {m m'} hm hm' hlt => ?_
  simp only [List.mem_filter, decide_eq_true_eq] at hm hm'
  have := hlt _ (hrank m hm.2) _ (hrank m' hm'.2)
  omega

theorem length_le_of_pairwise {l : List Nat} {n : Nat} (first : Nat) (h : l.Pairwise (· < ·))
    (hl : ∀ p ∈ l, first ≤ p ∧ p < first + n) : l.length ≤ n := by
  have hsub : l ⊆ List.range' first n := fun p hp => List.mem_range'_1.mpr (hl p hp)
  have hnodup : l.Nodup := h.imp Nat.ne_of_lt
  exact Nat.le_trans (hnodup.subperm hsub).length_le (Nat.le_of_eq List.length_range')

theorem Goes.orderly {n lo hi : Nat} (h : Goes n lo hi .start c) (hlo : 0 < lo) : c.Orderly n := by
  obtain ⟨ms, hms, hs⟩ := h.history
  obtain rfl : c.history = ms := hms
  have hlines := places_pairwise hs .line 1 fun m hm => by rw [Moment.rank?, hm]
  have hdescents := places_pairwise hs .descend 0 fun m hm => by rw [Moment.rank?, hm]; rfl
  refine ⟨h.inside, h.blocks, h.operators, hs.inside, hlines, length_le_of_pairwise 0 hlines ?_,
    hdescents, length_le_of_pairwise 1 hdescents ?_, hs.whole⟩
  · intro p hp
    obtain ⟨m, hm, rfl⟩ := List.mem_map.mp hp
    have := hs.inside m (List.mem_filter.mp hm).1
    omega
  · -- no descent is made before the first token: its rank would be zero
    intro p hp
    obtain ⟨m, hm, rfl⟩ := List.mem_map.mp hp
    obtain ⟨hm, hdescend⟩ := List.mem_filter.mp hm
    have := hs.inside m hm
    have hrank : m.rank? = some (2 * m.position) := by rw [Moment.rank?, of_decide_eq_true hdescend]
    have := (hs.bounds _ (List.mem_filterMap.mpr ⟨m, hm, hrank⟩)).1
    omega

end Cursor

theorem Walk.Does.answers {α β : Type} {m : Walk α} {k : α → Walk β} {lo d : Nat}
    {r : Except SyntaxError (Reached α)} {f : Reached α → β} (h : Does ts m .start lo d r) (hlo : 0 < lo)
    (hk : ∀ x c, c.At ts x.rest → c.directives = x.directives → k x.value c = .ok (f x) c) :
    Answers ts (m >>= k) (f <$> r) := by
  cases r with
  | ok x =>
    obtain ⟨c, hm, hat, hds, hg⟩ := h
    refine ⟨c, hg.orderly hlo, ?_⟩
    rw [bind_of_ok hm]
    exact hk x c hat hds
  | error e =>
    obtain ⟨c, hm, hg⟩ := h
    exact ⟨c, hg.orderly hlo, bind_of_error hm⟩

theorem Content.ofTokens_eq_map (ts : List Token) : Content.ofTokens ts =
    (fun r => (⟨r.value, r.directives⟩ : Content)) <$>
      (Section.read (lastSpan ts) maxNesting ts >>= Section.ended (lastSpan ts) none [] []) := by
  rw [Content.ofTokens, map_bind]
  congr 1
  funext s
  obtain ⟨content, rest, hle⟩ := s
  cases rest with
  | nil => rfl
  | cons t rest =>
    simp only [Section.ended, Walk.closing]
    cases t.kind with
    | endOfInput => rfl
    | _ => rfl

/-- Every list of tokens is answered, by a program as by an expression, and the answer is what is read. Fuel
for one step more than there are tokens is enough for every loop and every descent. -/
theorem Walk.answers_read (ts : List Token) (k : Nat) :
    Answers ts (program ts (ts.length + 1 + k)) (Content.ofTokens ts) ∧
      Answers ts (leadingExpression ts (ts.length + 1 + k)) (Expr.ofTokens ts) := by
  constructor
  · rw [Content.ofTokens_eq_map]
    refine (does_program k).answers Nat.zero_lt_one fun x c _ hds => ?_
    rw [← hds]
    rfl
  · have hread : Expr.ofTokens ts = (fun r => (r.value, ts.length - r.rest.length)) <$>
        (Parsed.reached [] <$> Expr.read (lastSpan ts) ts) := by
      rw [Expr.ofTokens]
      cases Expr.read (lastSpan ts) ts <;> rfl
    rw [hread]
    refine (does_expression .start rfl (by omega)).answers (Nat.succ_pos _) fun x c hat _ => ?_
    have hposition : ts.length - x.rest.length = c.position := by
      have := hat.length_eq
      have := hat.le
      omega
    rw [hposition]
    rfl

/-- A branch that breaks off after its first line: the line of its block begins where the tokens end. -/
example :
    let token (kind : TokenKind) : Token := { kind, lexeme := "", span := .first }
    let ts := [token (.keyword .si), token (.keyword .verdadero), token .newline]
    ∃ c, Walk.program ts 4 .start = .error (.error (.unterminatedBlock 1 .si)) c ∧
      c.places .line = [0, 3] ∧ c.places .descend = [3] ∧ c.position = 3 ∧ c.blocks = 0 :=
  ⟨_, rfl, by decide, by decide, rfl, rfl⟩

end Pseudocode
