import Pseudocode.Proofs.Session.Simulation

/-! # What a step can do

A step takes a sequence that is done off the stack, or it enters the instruction that comes next: the
next one of the innermost sequence, or the loop whose body that sequence was. Entering is all that a
cancelled session refuses.
-/

namespace Pseudocode

namespace Frame

/-- What the sequence enters next, with its path: its next instruction, or its loop again. -/
def upcoming? (f : Frame) : Option (Instruction × Path) :=
  match f.instructions[f.next]? with
  | some i => some (i, f.nextPath)
  | none => f.loop.map fun i => (i, f.path)

/-- What is on the stack in place of the sequence once that is entered. -/
def advance (f : Frame) : List Frame :=
  if f.next < f.instructions.length then [{ f with next := f.next + 1 }] else []

theorem upcoming?_cases {f : Frame} {i : Instruction} {path : Path}
    (he : f.upcoming? = some (i, path)) :
    (f.instructions[f.next]? = some i ∧ path = f.nextPath ∧
        f.advance = [{ f with next := f.next + 1 }]) ∨
      f.instructions[f.next]? = none ∧ f.loop = some i ∧ path = f.path ∧ f.advance = [] := by
  unfold upcoming? at he
  unfold advance
  split at he
  case h_1 j hj =>
    obtain ⟨rfl, rfl⟩ := Prod.mk.inj (Option.some.inj he)
    exact .inl ⟨hj, rfl, if_pos (List.getElem?_eq_some_iff.mp hj).1⟩
  case h_2 hj =>
    obtain ⟨j, hl, heq⟩ := Option.map_eq_some_iff.mp he
    obtain ⟨rfl, rfl⟩ := Prod.mk.inj heq
    exact .inr ⟨hj, hl, rfl, if_neg (Nat.not_lt.mpr (List.getElem?_eq_none_iff.mp hj))⟩

theorem Complete.of_upcoming? {f : Frame} (h : f.Complete) {i : Instruction} {path : Path}
    (hi : f.upcoming? = some (i, path)) : i.Complete := by
  obtain ⟨hi, -, -⟩ | ⟨-, hl, -, -⟩ := upcoming?_cases hi
  · exact h.instructions _ (List.mem_of_getElem? hi)
  · exact h.loop _ hl

theorem eq_of_mem_advance {f g : Frame} (hg : g ∈ f.advance) : g = { f with next := f.next + 1 } := by
  unfold advance at hg
  split at hg
  · exact List.mem_singleton.mp hg
  · cases hg

theorem Complete.of_advance {f g : Frame} (h : f.Complete) (hg : g ∈ f.advance) : g.Complete := by
  obtain rfl := eq_of_mem_advance hg
  exact ⟨h.instructions, h.loop⟩

/-- The sequence is the block that the instruction `i` at `path` goes on with. -/
inductive Opens (i : Instruction) (path : Path) : Frame → Prop where
  | body {body : List Instruction} : i.kind = .branch → i.body = some body →
      Opens i path ⟨body, 0, path, 0, none⟩
  | otherwise {body otherwise : List Instruction} : i.kind = .branch → i.body = some body →
      i.otherwise = some otherwise → Opens i path ⟨otherwise, 0, path, body.length, none⟩
  | loop {body : List Instruction} : i.kind = .loop → i.body = some body →
      Opens i path ⟨body, 0, path, 0, some i⟩

theorem Opens.complete {i : Instruction} {path : Path} {f : Frame} (h : Opens i path f)
    (hi : i.Complete) : f.Complete := by
  cases h with
  | body _ hb => exact hi.frame_body hb path none (by simp)
  | otherwise _ _ ho => exact hi.frame_otherwise ho path _
  | loop _ hb => exact hi.frame_body hb path (some i) (by simp [hi])

end Frame

namespace Session

variable {s t : Session} {i : Instruction} {path : Path} {o : Outcome} {f : Frame} {fs : List Frame}

def upcoming? (s : Session) : Option (Instruction × Path) :=
  s.frames.findSome? Frame.upcoming?

/-! ## Performing an instruction -/

inductive Performs (s : Session) (i : Instruction) (path : Path) : Outcome → Session → Prop where
  | assign {e : Expr} {v : Value} : i.action? = some (.assign i.argument e) →
      e.eval s.environment = .ok v → Performs s i path .running (s.assign i.argument v)
  | display {e : Expr} {v : Value} : i.action? = some (.display e) →
      e.eval s.environment = .ok v → Performs s i path .running (s.emit (.displayed v))
  | input : i.kind = .input → Performs s i path (.waiting i.argument)
      { s.emit (.inputRequested i.argument) with state := .waiting i.argument }
  | descend {f : Frame} : f.Opens i path → Performs s i path .running (s.push f)
  | skip : i.kind.hasBlock → Performs s i path .running s
  | fail (e : EvalError) : Performs s i path (.stopped (.failed path i.line e)) s

theorem performs_of_action? (s : Session) (path : Path) (h : i.action?.isSome) :
    Performs s i path (s.perform i path).1 (s.perform i path).2 := by
  obtain ⟨a, ha⟩ := Option.isSome_iff_exists.mp h
  cases a with
  | assign x e =>
    obtain ⟨-, rfl, -⟩ := Instruction.action?_eq_assign.mp ha
    rw [perform_assign s ha]
    cases hv : e.eval s.environment with
    | error err => exact .fail err
    | ok v => exact .assign ha hv
  | display e =>
    rw [perform_display s ha]
    cases hv : e.eval s.environment with
    | error err => exact .fail err
    | ok v => exact .display ha hv
  | input x =>
    obtain ⟨hk, rfl⟩ := Instruction.action?_eq_input.mp ha
    rw [perform_input s ha]
    exact .input hk
  | branch c body otherwise =>
    obtain ⟨hk, -, hb, -⟩ := Instruction.action?_eq_branch.mp ha
    rw [perform_branch s ha]
    rcases c.truth s.environment i.kind.keyword with err | _ | _
    · exact .fail err
    · cases ho : i.otherwise with
      | none => exact .skip (by simp [hk, InstructionKind.hasBlock])
      | some o => exact .descend (.otherwise hk hb ho)
    · exact .descend (.body hk hb)
  | loop c body =>
    obtain ⟨hk, -, hb⟩ := Instruction.action?_eq_loop.mp ha
    rw [perform_loop s ha]
    rcases c.truth s.environment i.kind.keyword with err | _ | _
    · exact .fail err
    · exact .skip (by simp [hk, InstructionKind.hasBlock])
    · exact .descend (.loop hk hb)

/-! ## Steps -/

inductive Moves (s : Session) : Outcome → Session → Prop where
  | finish : s.frames = [] → Moves s .finished { s with state := .finished }
  | leave {f : Frame} {fs : List Frame} : s.frames = f :: fs → f.upcoming? = none →
      Moves s .running { s with frames := fs }
  | cancel {f : Frame} {fs gs : List Frame} {i : Instruction} {path : Path} :
      s.frames = f :: fs → f.upcoming? = some (i, path) → s.cancelled → (gs = f :: fs ∨ gs = fs) →
      Moves s (.stopped (.cancelled path)) { s with frames := gs }
  | enter {f : Frame} {fs : List Frame} {i : Instruction} {path : Path} {o : Outcome} {t : Session} :
      s.frames = f :: fs → f.upcoming? = some (i, path) → ¬ s.cancelled →
      Performs ({ s with frames := f.advance ++ fs }.enter i path) i path o t → Moves s o t

theorem step_of_leave (hf : s.frames = f :: fs) (he : f.upcoming? = none) :
    s.step = (.running, { s with frames := fs }) := by
  unfold Frame.upcoming? at he
  split at he
  case h_1 => cases he
  case h_2 hi => exact step_of_done hf hi (Option.map_eq_none_iff.mp he)

theorem step_of_cancelled (hf : s.frames = f :: fs) (he : f.upcoming? = some (i, path))
    (hc : s.cancelled) :
    ∃ gs, (gs = f :: fs ∨ gs = fs) ∧ s.step = (.stopped (.cancelled path), { s with frames := gs }) := by
  obtain ⟨hi, rfl, -⟩ | ⟨hi, hl, rfl, -⟩ := Frame.upcoming?_cases he
  · exact ⟨f :: fs, .inl rfl, by rw [step_of_next_cancelled hf hi hc, ← hf]⟩
  · exact ⟨fs, .inr rfl, step_of_again_cancelled hf hi hl hc⟩

theorem step_of_entry (hf : s.frames = f :: fs) (he : f.upcoming? = some (i, path))
    (hc : s.cancelled = false) : s.step = { s with frames := f.advance ++ fs }.execute i path := by
  obtain ⟨hi, rfl, hadvance⟩ | ⟨hi, hl, rfl, hadvance⟩ := Frame.upcoming?_cases he
  · rw [hadvance]
    exact step_of_next hf hi hc
  · rw [hadvance]
    exact step_of_again hf hi hl hc

def Complete (s : Session) : Prop :=
  ∀ f ∈ s.frames, f.Complete

theorem step_moves (h : s.Complete) : Moves s s.step.1 s.step.2 := by
  cases hf : s.frames with
  | nil =>
    rw [step_of_nil hf]
    exact .finish hf
  | cons f fs =>
    cases he : f.upcoming? with
    | none =>
      rw [step_of_leave hf he]
      exact .leave hf he
    | some q =>
      obtain ⟨i, path⟩ := q
      by_cases hc : s.cancelled
      · obtain ⟨gs, hgs, hstep⟩ := step_of_cancelled hf he hc
        rw [hstep]
        exact .cancel hf he hc hgs
      · rw [step_of_entry hf he (by simpa using hc)]
        have hi : i.Complete := (h f (by simp [hf])).of_upcoming? he
        exact .enter hf he hc (performs_of_action? _ path hi.action)

/-! ## What stays on the stack -/

theorem Performs.frames (h : Performs s i path o t) :
    t.frames = s.frames ∨ ∃ f, f.Opens i path ∧ t.frames = f :: s.frames := by
  cases h with
  | descend hf => exact .inr ⟨_, hf, rfl⟩
  | _ => exact .inl rfl

/-- A property of sequences holds of all on the stack after a move, if it passes from a sequence to the
rest of it and to a block of what is entered next. -/
theorem Moves.forall_frames {P : Frame → Prop} (h : Moves s o t) (hs : ∀ f ∈ s.frames, P f)
    (hadvance : ∀ f g, P f → g ∈ f.advance → P g)
    (hopens : ∀ f g i path, P f → f.upcoming? = some (i, path) → g.Opens i path → P g) :
    ∀ f ∈ t.frames, P f := by
  cases h with
  | finish _ => exact hs
  | leave hf _ => exact fun g hg => hs g (by simp [hf, show g ∈ _ from hg])
  | cancel hf _ _ hgs =>
    rcases hgs with rfl | rfl
    · exact fun g hg => hs g (by simpa [hf] using hg)
    · exact fun g hg => hs g (by simp [hf, show g ∈ _ from hg])
  | @enter f fs i path _ _ hf he _ hp =>
    have hpf : P f := hs f (by simp [hf])
    have hrest : ∀ g ∈ f.advance ++ fs, P g := by
      intro g hg
      rcases List.mem_append.mp hg with hg | hg
      · exact hadvance f g hpf hg
      · exact hs g (by simp [hf, hg])
    rcases hp.frames with hframes | ⟨g, hg, hframes⟩
    · rw [hframes, enter_frames]
      exact hrest
    · rw [hframes, enter_frames, List.forall_mem_cons]
      exact ⟨hopens f g i path hpf he hg, hrest⟩

theorem Moves.complete (h : Moves s o t) (hs : s.Complete) : t.Complete :=
  h.forall_frames hs (fun _ _ hf hg => hf.of_advance hg)
    fun _ _ _ _ hf he hg => hg.complete (hf.of_upcoming? he)

end Session
end Pseudocode
