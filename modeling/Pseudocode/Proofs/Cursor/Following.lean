import Pseudocode.Proofs.Cursor.Walk

/-! # Walks that follow a reading

A walk follows a reading when it comes to the same value or the same error, stands before the tokens that the
reading leaves, and has kept to the order of moves on its way there. There is one rule for each thing that a
walk does; a sequence follows a sequence.
-/

namespace Pseudocode

variable {α β γ δ : Type} {ts us : List Token} {t : Token} {n lo mid hi lo' hi' d d' : Nat}
  {c c' c'' : Cursor}

namespace Cursor

@[simp] theorem note_operators (move : Move) : (c.note move).operators = c.operators := rfl

@[simp] theorem note_directives (move : Move) : (c.note move).directives = c.directives := rfl

@[simp] theorem passed_position : c.passed.position = c.position + 1 := rfl

@[simp] theorem passed_operators : c.passed.operators = c.operators := rfl

@[simp] theorem passed_directives : c.passed.directives = c.directives := rfl

@[simp] theorem setDepth_position (depth : Nat) (nesting : Nesting) :
    (c.setDepth depth nesting).position = c.position := by
  cases nesting <;> rfl

@[simp] theorem setDepth_directives (depth : Nat) (nesting : Nesting) :
    (c.setDepth depth nesting).directives = c.directives := by
  cases nesting <;> rfl

@[simp] theorem setDepth_history (depth : Nat) (nesting : Nesting) :
    (c.setDepth depth nesting).history = c.history := by
  cases nesting <;> rfl

/-- The cursor stands before the tokens `us` of `ts`. -/
structure At (ts us : List Token) (c : Cursor) : Prop where
  le : c.position ≤ ts.length
  before : ts.drop c.position = us

theorem At.note (h : c.At ts us) (move : Move) : (c.note move).At ts us :=
  ⟨h.le, h.before⟩

theorem At.setDepth (h : c.At ts us) (depth : Nat) (nesting : Nesting) :
    (c.setDepth depth nesting).At ts us :=
  ⟨by rw [setDepth_position]; exact h.le, by rw [setDepth_position]; exact h.before⟩

theorem At.length_eq (h : c.At ts us) : us.length = ts.length - c.position := by
  rw [← h.before, List.length_drop]

theorem At.getElem?_eq (h : c.At ts us) : ts[c.position]? = us.head? := by
  rw [← h.before, List.head?_drop]

theorem At.lt (h : c.At ts (t :: us)) : c.position < ts.length := by
  have := h.length_eq
  rw [List.length_cons] at this
  omega

theorem At.passed (h : c.At ts (t :: us)) : c.passed.At ts us :=
  ⟨h.lt, by rw [passed_position, ← List.drop_drop, h.before]; rfl⟩

theorem At.start : start.At ts ts :=
  ⟨Nat.zero_le _, rfl⟩

/-- The cursor goes from `c` to `c'` over `n` tokens: as many blocks and operators are open again, and what
has been done on the way is a stretch from the rank `lo` to below `hi`. -/
structure Goes (n lo hi : Nat) (c c' : Cursor) : Prop where
  inside : c'.position ≤ n
  range : lo ≤ hi
  blocks : c'.blocks = c.blocks
  operators : c'.operators = c.operators
  history : ∃ ms, c'.history = c.history ++ ms ∧ Stretch n lo hi ms

theorem Goes.refl (h : c.position ≤ n) (hr : lo ≤ hi) : Goes n lo hi c c :=
  ⟨h, hr, rfl, rfl, [], (List.append_nil _).symm, .nil⟩

theorem Goes.trans (h : Goes n lo mid c c') (h' : Goes n mid hi c' c'') : Goes n lo hi c c'' := by
  obtain ⟨ms, hms, hs⟩ := h.history
  obtain ⟨ns, hns, hs'⟩ := h'.history
  exact ⟨h'.inside, Nat.le_trans h.range h'.range, h'.blocks.trans h.blocks, h'.operators.trans h.operators,
    ms ++ ns, by rw [hns, hms, List.append_assoc], hs.append hs' h.range h'.range⟩

theorem Goes.mono (h : Goes n lo hi c c') (hlo : lo' ≤ lo) (hhi : hi ≤ hi') : Goes n lo' hi' c c' := by
  obtain ⟨ms, hms, hs⟩ := h.history
  exact ⟨h.inside, Nat.le_trans hlo (Nat.le_trans h.range hhi), h.blocks, h.operators, ms, hms,
    hs.mono hlo hhi⟩

theorem Goes.passed (h : c.position < n) : Goes n lo lo c c.passed :=
  ⟨h, Nat.le_refl _, rfl, rfl, _, rfl, .pass rfl h⟩

theorem Goes.line (h : c.position ≤ n) :
    Goes n (2 * c.position + 1) (2 * c.position + 2) c (c.note .line) :=
  ⟨h, Nat.le_succ _, rfl, rfl, _, rfl, Stretch.line (m := c.moment .line) rfl h⟩

theorem Goes.part (h : Goes n lo hi (c.note .enter) c') (hc : c.position ≤ n) (hlo : 2 * c.position < lo) :
    Goes n lo hi c (c'.note .leave) := by
  obtain ⟨ms, hms, hs⟩ := h.history
  refine ⟨h.inside, h.range, h.blocks, h.operators, c.moment .enter :: (ms ++ [c'.moment .leave]), ?_,
    hs.part rfl rfl h.blocks h.operators hc h.inside hlo⟩
  rw [Cursor.note, hms, Cursor.note, List.append_assoc, List.append_assoc]
  rfl

theorem Goes.deeper (nesting : Nesting)
    (h : Goes n (2 * c.position + 1) hi ((c.setDepth (c.depth nesting + 1) nesting).note .descend) c')
    (hc : c.position ≤ n) :
    Goes n (2 * c.position) hi c (c'.setDepth (c.depth nesting) nesting) := by
  obtain ⟨ms, hms, hs⟩ := h.history
  have hdescend : Stretch n (2 * c.position) (2 * c.position + 1)
      [(c.setDepth (c.depth nesting + 1) nesting).moment .descend] := by
    rw [← setDepth_position (c := c) (c.depth nesting + 1) nesting] at hc ⊢
    exact .descend (m := Cursor.moment _ .descend) rfl hc
  refine ⟨?inside, Nat.le_of_succ_le h.range, ?blocks, ?operators, _, ?history,
    hdescend.append hs (Nat.le_succ _) h.range⟩
  case inside => rw [setDepth_position]; exact h.inside
  case blocks =>
    cases nesting with
    | block => rfl
    | operator => exact h.blocks
  case operators =>
    cases nesting with
    | block => exact h.operators
    | operator => rfl
  case history => rw [setDepth_history, hms, Cursor.note, setDepth_history, List.append_assoc]

end Cursor

/-- What a walk comes to: a value, the directives found by then, and the tokens that are left. -/
structure Reached (α : Type) where
  value : α
  directives : List Directive
  rest : List Token

def Parsed.reached (ds : List Directive) (p : Parsed α us) : Reached α :=
  ⟨p.value, ds, p.rest⟩

theorem Except.map_map_eq_bind {ε : Type} {x : Except ε α} {f : α → β} {g : β → γ} :
    g <$> x.map f = x >>= fun a => .ok (g (f a)) := by
  cases x <;> rfl

open Cursor in
/-- The walk does as it is told from `c` on. Its lines and descents begin at the rank `lo`; when it comes to
the end of what it reads, they are below the place that it stands at by then, but for `d`. A block is left with
`d = 2`, since it begins with a line where it finds that there is none; all else is left with `d = 0`. -/
def Walk.Does (ts : List Token) (m : Walk α) (c : Cursor) (lo d : Nat) :
    Except SyntaxError (Reached α) → Prop
  | .ok r => ∃ c', m c = .ok r.value c' ∧ c'.At ts r.rest ∧ c'.directives = r.directives ∧
      Goes ts.length lo (2 * c'.position + d) c c'
  | .error e => ∃ c', m c = .error (.error e) c' ∧ Goes ts.length lo (2 * ts.length + 2) c c'

namespace Walk

open Cursor

variable {m w : Walk α} {k : α → Walk β} {r : Except SyntaxError (Reached α)}
  {s : Except SyntaxError (Reached β)} {a : α} {e : SyntaxError}

theorem bind_of_ok (h : m c = .ok a c') : (m >>= k) c = k a c' := by
  show EStateM.bind m k c = _
  rw [EStateM.bind, h]

theorem bind_of_error {halt : Halt} (h : m c = .error halt c') : (m >>= k) c = .error halt c' := by
  show EStateM.bind m k c = _
  rw [EStateM.bind, h]

/-! ## Steps

The rank of a place is twice its position, so that a token which is passed raises it by two. A rule for a step
leads from what is done after it to the whole; one that reads leads from what is done with each result.
-/

theorem Does.of_step (h : Does ts w c' lo' d r) (hg : Goes ts.length lo lo' c c') (hm : m c = w c') :
    Does ts m c lo d r := by
  cases r with
  | ok r =>
    obtain ⟨c'', hm', hat, hds, hg'⟩ := h
    exact ⟨c'', hm.trans hm', hat, hds, hg.trans hg'⟩
  | error e =>
    obtain ⟨c'', hm', hg'⟩ := h
    exact ⟨c'', hm.trans hm', hg.trans hg'⟩

theorem Does.mono (h : Does ts m c lo d r) (hlo : lo' ≤ lo) : Does ts m c lo' d r := by
  cases r with
  | ok r =>
    obtain ⟨c'', hm', hat, hds, hg⟩ := h
    exact ⟨c'', hm', hat, hds, hg.mono hlo (Nat.le_refl _)⟩
  | error e =>
    obtain ⟨c'', hm', hg⟩ := h
    exact ⟨c'', hm', hg.mono hlo (Nat.le_refl _)⟩

theorem Does.congr (h : Does ts w c lo d r) (hm : m c = w c) : Does ts m c lo d r := by
  cases r <;> rwa [Does, hm]

theorem Does.pure {ds : List Directive} (hc : c.At ts us) (hds : c.directives = ds)
    (hlo : lo ≤ 2 * c.position + d) : Does ts (Pure.pure a) c lo d (.ok ⟨a, ds, us⟩) :=
  ⟨c, rfl, hc, hds, .refl hc.le hlo⟩

theorem Does.refuse (hc : c.At ts us) (hlo : lo ≤ 2 * c.position + 2) :
    Does ts (Walk.refuse e : Walk α) c lo d (.error e) := by
  have := hc.le
  exact ⟨c, rfl, .refl hc.le (by omega)⟩

theorem Does.refuseToken {expected : Expectation} (hc : c.At ts us) (hlo : lo ≤ 2 * c.position + 2) :
    Does ts (Walk.refuseToken ts expected : Walk α) c lo d
      (.error (unexpected (lastSpan ts) expected us)) := by
  rw [← hc.before]
  exact Does.congr (w := Walk.refuse (unexpected (lastSpan ts) expected (ts.drop c.position)))
    (.refuse hc hlo) rfl

theorem Does.fail (h : Does ts m c lo d (.error e)) : Does ts (m >>= k) c lo d (.error e) := by
  obtain ⟨c', hm, hg⟩ := h
  exact ⟨c', bind_of_error hm, hg⟩

theorem Does.next {r : Reached α} (h : Does ts m c lo d (.ok r))
    (hk : ∀ c', c'.At ts r.rest → c'.directives = r.directives →
      Goes ts.length lo (2 * c'.position + d) c c' →
      Does ts (k r.value) c' (2 * c'.position + d) d' s) :
    Does ts (m >>= k) c lo d' s := by
  obtain ⟨c', hm, hat, hds, hg⟩ := h
  exact (hk c' hat hds hg).of_step hg (bind_of_ok hm)

theorem Does.bind {x : Except SyntaxError γ} {g : γ → Reached α}
    {f : γ → Except SyntaxError (Reached β)} (h : Does ts m c lo d (g <$> x))
    (hk : ∀ p c', x = .ok p → c'.At ts (g p).rest → c'.directives = (g p).directives →
      Goes ts.length lo (2 * c'.position + d) c c' →
      Does ts (k (g p).value) c' (2 * c'.position + d) d' (f p)) :
    Does ts (m >>= k) c lo d' (x >>= f) := by
  cases x with
  | ok p => exact h.next (hk p · rfl)
  | error e => exact h.fail

theorem Does.read {ds : List Directive} {x : Except SyntaxError (Parsed α us)}
    {f : Parsed α us → Except SyntaxError (Reached β)} (h : Does ts m c lo 0 (Parsed.reached ds <$> x))
    (hk : ∀ p c', c'.At ts p.rest → c'.directives = ds → Goes ts.length lo (2 * c'.position) c c' →
      Does ts (k p.value) c' (2 * c'.position) d (f p)) :
    Does ts (m >>= k) c lo d (x >>= f) :=
  h.bind fun p c' _ hat hds hg => hk p c' hat hds hg

theorem Does.pass {k : Unit → Walk β} (hc : c.position < ts.length)
    (h : Does ts (k ()) c.passed lo d s) : Does ts (Walk.pass >>= k) c lo d s :=
  h.of_step (.passed hc) rfl

theorem does_pass (hc : c.At ts (t :: us)) :
    Does ts Walk.pass c (2 * c.position + 2) 0 (.ok ⟨(), c.directives, us⟩) :=
  ⟨c.passed, rfl, hc.passed, rfl, .passed hc.lt⟩

theorem Does.line_start {k : Unit → Walk β} (hc : c.position ≤ ts.length)
    (h : Does ts (k ()) (c.note .line) (2 * c.position + 2) d s) :
    Does ts (Walk.note .line >>= k) c (2 * c.position + 1) d s :=
  h.of_step (.line hc) rfl

theorem Does.peek {k : Option Token → Walk β} (hc : c.At ts us) (h : Does ts (k us.head?) c lo d s) :
    Does ts (peek? ts >>= k) c lo d s :=
  h.congr (by rw [← hc.getElem?_eq]; rfl)

theorem Does.get {k : Cursor → Walk β} (h : Does ts (k c) c lo d s) :
    Does ts (MonadState.get >>= k) c lo d s :=
  h.congr rfl

theorem Does.line {k : Nat → Walk β} (hc : c.At ts (t :: us)) (h : Does ts (k t.span.line) c lo d s) :
    Does ts (Walk.line ts >>= k) c lo d s := by
  refine h.congr ?_
  have hline : (ts[c.position]?.or ts.getLast?).elim 1 (·.span.line) = t.span.line := by
    rw [hc.getElem?_eq]
    rfl
  rw [← hline]
  rfl

theorem does_passWhile {p : Token → Bool} {fuel : Nat} (hc : c.At ts us) (hf : us.length < fuel) :
    Does ts (passWhile ts p fuel) c (2 * c.position + d) d (.ok ⟨(), c.directives, us.dropWhile p⟩) := by
  induction fuel generalizing c us with
  | zero => exact absurd hf (Nat.not_lt_zero _)
  | succ fuel ih =>
    refine .peek hc ?_
    cases us with
    | nil => exact .pure hc rfl (Nat.le_refl _)
    | cons t us =>
      rw [List.dropWhile_cons, List.head?_cons, Option.any_some]
      by_cases hp : p t
      · rw [if_pos hp, if_pos hp]
        refine .pass hc.lt ((ih hc.passed (Nat.lt_of_succ_lt_succ hf)).mono ?_)
        rw [passed_position]
        omega
      · rw [if_neg hp, if_neg hp]
        exact .pure hc rfl (Nat.le_refl _)

theorem Does.passWhile {p : Token → Bool} {fuel : Nat} {k : Unit → Walk β} (d : Nat) (hc : c.At ts us)
    (hf : us.length < fuel)
    (hk : ∀ c', c'.At ts (us.dropWhile p) → c'.directives = c.directives →
      Goes ts.length (2 * c.position + d) (2 * c'.position + d) c c' →
      Does ts (k ()) c' (2 * c'.position + d) d' s) :
    Does ts (Walk.passWhile ts p fuel >>= k) c (2 * c.position + d) d' s :=
  (does_passWhile hc hf).next hk

theorem Does.lexemes {k : String → Walk β} {start : Cursor} {vs : List Token} (hs : start.At ts vs)
    (hc : c.At ts us) (hle : start.position ≤ c.position)
    (h : Does ts (k (Directive.lexemes (vs.take (vs.length - us.length)))) c lo d s) :
    Does ts (lexemesSince ts start.position >>= k) c lo d s := by
  refine h.congr ?_
  have htake : (ts.take c.position).drop start.position = vs.take (vs.length - us.length) := by
    have := hs.le
    have := hc.le
    rw [List.drop_take, hs.before, hs.length_eq, hc.length_eq]
    congr 1
    omega
  have hrun : lexemesSince ts start.position c =
      .ok (Directive.lexemes (vs.take (vs.length - us.length))) c := by
    rw [← htake]
    show (if start.position ≤ c.position ∧ c.position ≤ ts.length then _ else _ : Walk String) c = _
    rw [if_pos ⟨hle, hc.le⟩]
    rfl
  exact bind_of_ok hrun

/-! ## Parts and levels -/

theorem Does.part (h : Does ts m (c.note .enter) lo d r) (hc : c.position ≤ ts.length)
    (hlo : 2 * c.position < lo) : Does ts (Walk.part m) c lo d r := by
  cases r with
  | ok r =>
    obtain ⟨c', hm, hat, hds, hg⟩ := h
    exact ⟨c'.note .leave, by rw [Walk.part, hm], hat.note _, hds, hg.part hc hlo⟩
  | error e =>
    obtain ⟨c', hm, hg⟩ := h
    exact ⟨c'.note .leave, by rw [Walk.part, hm], hg.part hc hlo⟩

theorem Does.deeper {nesting : Nesting} {line : Nat} (hc : c.position ≤ ts.length)
    (hdepth : c.depth nesting ≠ maxNesting)
    (h : Does ts m ((c.setDepth (c.depth nesting + 1) nesting).note .descend) (2 * c.position + 1) d r) :
    Does ts (Walk.deeper nesting line m) c (2 * c.position) d r := by
  cases r with
  | ok r =>
    obtain ⟨c', hm, hat, hds, hg⟩ := h
    refine ⟨c'.setDepth (c.depth nesting) nesting, by rw [Walk.deeper, if_neg hdepth, hm], hat.setDepth _ _,
      by rw [setDepth_directives, hds], ?_⟩
    rw [setDepth_position]
    exact hg.deeper _ hc
  | error e =>
    obtain ⟨c', hm, hg⟩ := h
    exact ⟨c'.setDepth (c.depth nesting) nesting, by rw [Walk.deeper, if_neg hdepth, hm], hg.deeper _ hc⟩

theorem Does.tooDeep {nesting : Nesting} {line : Nat} (hc : c.At ts us)
    (hdepth : c.depth nesting = maxNesting) (hlo : lo ≤ 2 * c.position + 2) :
    Does ts (Walk.deeper nesting line m) c lo d (.error (.tooDeep line)) := by
  have := hc.le
  exact ⟨c, by rw [Walk.deeper, if_pos hdepth], .refl hc.le (by omega)⟩

/-! ## Readings -/

/-- The walk follows a reading of fewer than `bound` tokens, when `allowed` more operators may be opened. What
it reads it takes, so that all it does comes after the token that it begins with. -/
def Follows (ts : List Token) (allowed bound : Nat) (m : Walk α) (read : Reading α) : Prop :=
  ∀ c us, c.At ts us → c.operators + allowed = maxNesting → us.length < bound →
    Does ts m c (2 * c.position + 2) 0 (Parsed.reached c.directives <$> read us)

theorem Follows.deeper {allowed bound line : Nat} {read : Reading α} (h : Follows ts allowed bound m read)
    (hc : c.At ts us) (ho : c.operators + (allowed + 1) = maxNesting) (hb : us.length < bound) :
    Does ts (Walk.deeper .operator line m) c (2 * c.position) 0
      (Parsed.reached c.directives <$> read us) := by
  refine .deeper hc.le (Nat.ne_of_lt (show c.operators < _ by omega))
    (.mono (h _ us ?_ ?_ hb) (Nat.le_succ _))
  · exact (hc.setDepth _ _).note _
  · show c.operators + 1 + allowed = _
    omega

end Walk
end Pseudocode
