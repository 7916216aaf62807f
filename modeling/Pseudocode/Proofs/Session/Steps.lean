import Pseudocode.Proofs.Session.Semantics

/-! # Sessions and progress

A session that nothing is going to cancel shows a progress: its variables and events are those of
the progress. What a session does to its variables and events when it performs an instruction is what
the meaning of the instruction says, one equation for each kind of action, and one for each kind of
step.
-/

namespace Pseudocode

namespace Session

variable {s t : Session} {σ : Progress} {p : Program}

/-! ## Reports -/

@[simp] theorem emit_environment (e : Event) : (s.emit e).environment = s.environment := rfl
@[simp] theorem emit_frames (e : Event) : (s.emit e).frames = s.frames := rfl
@[simp] theorem emit_program (e : Event) : (s.emit e).program = s.program := rfl
@[simp] theorem emit_state (e : Event) : (s.emit e).state = s.state := rfl
@[simp] theorem emit_started (e : Event) : (s.emit e).started = s.started := rfl
@[simp] theorem emit_cancelAt (e : Event) : (s.emit e).cancelAt = s.cancelAt := rfl
@[simp] theorem emit_events (e : Event) : (s.emit e).events.toList = s.events.toList ++ [e] := by
  simp [emit]

theorem emit_cancelled (e : Event) (h : s.cancelAt = none) :
    (s.emit e).cancelled = s.cancelled := by
  simp [emit, h]

theorem emitAll_keeps {α : Type} {f : Session → α} (hf : ∀ s e, f (s.emit e) = f s) (s : Session)
    (es : List Event) : f (s.emitAll es) = f s := by
  induction es generalizing s with
  | nil => rfl
  | cons e es ih => exact (ih (s.emit e)).trans (hf s e)

/-- The session has got as far as `σ`, and nothing is going to cancel it. -/
structure Shows (s : Session) (p : Program) (σ : Progress) : Prop where
  program : s.program = p
  state : s.state = .ready
  started : s.started = true
  cancelled : s.cancelled = false
  cancelAt : s.cancelAt = none
  environment : s.environment = σ.environment
  events : s.events.toList = σ.events

theorem Shows.emit (h : s.Shows p σ) (e : Event) : (s.emit e).Shows p (σ.report e) where
  program := h.program
  state := h.state
  started := h.started
  cancelled := by rw [emit_cancelled e h.cancelAt, h.cancelled]
  cancelAt := h.cancelAt
  environment := h.environment
  events := by simp [Progress.report, h.events]

theorem Shows.emitAll (h : s.Shows p σ) (es : List Event) :
    (s.emitAll es).Shows p { σ with events := σ.events ++ es } := by
  induction es generalizing s σ with
  | nil => simpa [Session.emitAll] using h
  | cons e es ih =>
    have hs := ih (h.emit e)
    simp only [Progress.report, List.append_assoc, List.singleton_append] at hs
    exact hs

theorem Shows.setCurrent (h : s.Shows p σ) (c : Option (Path × Style)) :
    { s with current := c }.Shows p σ :=
  ⟨h.program, h.state, h.started, h.cancelled, h.cancelAt, h.environment, h.events⟩

theorem Shows.setFrames (h : s.Shows p σ) (fs : List Frame) : { s with frames := fs }.Shows p σ :=
  ⟨h.program, h.state, h.started, h.cancelled, h.cancelAt, h.environment, h.events⟩

theorem Shows.setReady (h : s.Shows p σ) : { s with state := .ready }.Shows p σ :=
  ⟨h.program, rfl, h.started, h.cancelled, h.cancelAt, h.environment, h.events⟩

theorem Shows.setInputs (h : s.Shows p σ) (inputs : List String) :
    s.Shows p { σ with inputs := inputs } :=
  ⟨h.program, h.state, h.started, h.cancelled, h.cancelAt, h.environment, h.events⟩

theorem Shows.enter (h : s.Shows p σ) (i : Instruction) (path : Path) :
    (s.enter i path).Shows p (σ.enter p i path) := by
  obtain rfl := h.program
  have hs := fun c => ((h.emitAll (((s.program.aimedAt path).filter
    (DirectiveKind.appliesTo ·.kind i.kind)).map Event.styled)).setCurrent c).emit (.entered path)
  simp only [Progress.report, List.append_assoc] at hs
  exact hs _

theorem Shows.enter_environment (h : s.Shows p σ) {i : Instruction} {path : Path} :
    (s.enter i path).environment = σ.environment :=
  (h.enter i path).environment

theorem Shows.assign (h : s.Shows p σ) (x : String) (v : Value) :
    (s.assign x v).Shows p (σ.bind x v) := by
  have hs : { s with environment := s.environment.insert x v }.Shows p
      { σ with environment := σ.environment.insert x v } :=
    ⟨h.program, h.state, h.started, h.cancelled, h.cancelAt, by rw [h.environment], h.events⟩
  exact hs.emit (.assigned x v)

theorem emitAll_frames (s : Session) (es : List Event) : (s.emitAll es).frames = s.frames :=
  emitAll_keeps (f := Session.frames) (fun _ _ => rfl) s es

@[simp] theorem enter_frames (i : Instruction) (path : Path) :
    (s.enter i path).frames = s.frames :=
  emitAll_frames s _

/-! ## Performing an instruction -/

variable {i : Instruction} {path : Path} {c e : Expr} {x : String}
  {body otherwise : List Instruction}

theorem condition_eq (s : Session) (path : Path) (h : i.argumentExpr = some c) :
    s.condition i path =
      (c.truth s.environment i.kind.keyword).mapError (.failed path i.line) := by
  simp only [condition, evaluate, h, Expr.truth]
  cases c.eval s.environment with
  | error err => rfl
  | ok v => cases v <;> rfl

theorem perform_assign (s : Session) (h : i.action? = some (.assign x e)) :
    s.perform i path = match e.eval s.environment with
      | .error err => (.stopped (.failed path i.line err), s)
      | .ok v => (.running, s.assign x v) := by
  obtain ⟨hk, rfl, hv⟩ := Instruction.action?_eq_assign.mp h
  simp only [perform, hk, evaluate, hv]
  cases e.eval s.environment <;> rfl

theorem perform_display (s : Session) (h : i.action? = some (.display e)) :
    s.perform i path = match e.eval s.environment with
      | .error err => (.stopped (.failed path i.line err), s)
      | .ok v => (.running, s.emit (.displayed v)) := by
  obtain ⟨hk, he⟩ := Instruction.action?_eq_display.mp h
  simp only [perform, hk, evaluate, he]
  cases e.eval s.environment <;> rfl

theorem perform_input (s : Session) (h : i.action? = some (.input x)) :
    s.perform i path =
      (.waiting x, { s.emit (.inputRequested x) with state := .waiting x }) := by
  obtain ⟨hk, rfl⟩ := Instruction.action?_eq_input.mp h
  simp only [perform, hk]

theorem perform_branch (s : Session) (h : i.action? = some (.branch c body otherwise)) :
    s.perform i path = match c.truth s.environment i.kind.keyword with
      | .error err => (.stopped (.failed path i.line err), s)
      | .ok true => (.running, s.push ⟨body, 0, path, 0, none⟩)
      | .ok false => (.running, i.otherwise.elim s fun o => s.push ⟨o, 0, path, body.length, none⟩) := by
  obtain ⟨hk, hc, hb, -⟩ := Instruction.action?_eq_branch.mp h
  simp only [perform, hk, hb, s.condition_eq path hc]
  cases c.truth s.environment InstructionKind.branch.keyword with
  | error err => rfl
  | ok b => cases b <;> cases i.otherwise <;> rfl

theorem perform_loop (s : Session) (h : i.action? = some (.loop c body)) :
    s.perform i path = match c.truth s.environment i.kind.keyword with
      | .error err => (.stopped (.failed path i.line err), s)
      | .ok true => (.running, s.push ⟨body, 0, path, 0, some i⟩)
      | .ok false => (.running, s) := by
  obtain ⟨hk, hc, hb⟩ := Instruction.action?_eq_loop.mp h
  simp only [perform, hk, hb, s.condition_eq path hc]
  cases c.truth s.environment InstructionKind.loop.keyword with
  | error err => rfl
  | ok b => cases b <;> rfl

/-- Performing an instruction goes by the variables alone, so it commutes with a map of sessions that
keeps them and commutes with all that an instruction does. -/
theorem perform_map (φ : Session → Session) (s : Session) (i : Instruction) (path : Path)
    (henvironment : (φ s).environment = s.environment)
    (hassign : ∀ x v, (φ s).assign x v = φ (s.assign x v))
    (hdisplay : ∀ v, (φ s).emit (.displayed v) = φ (s.emit (.displayed v)))
    (hinput : ∀ x, { (φ s).emit (.inputRequested x) with state := .waiting x } =
      φ { s.emit (.inputRequested x) with state := .waiting x })
    (hpush : ∀ f, (φ s).push f = φ (s.push f)) :
    (φ s).perform i path = ((s.perform i path).1, φ (s.perform i path).2) := by
  have hevaluate (e : Option Expr) : (φ s).evaluate i path e = s.evaluate i path e := by
    cases e with
    | none => rfl
    | some e => rw [evaluate, evaluate, henvironment]
  have hcondition : (φ s).condition i path = s.condition i path := by
    rw [condition, condition, hevaluate]
  cases hk : i.kind with
  | assign =>
    simp only [perform, hk, hevaluate]
    cases s.evaluate i path i.value with
    | error e => rfl
    | ok v => simp only [hassign]
  | display =>
    simp only [perform, hk, hevaluate]
    cases s.evaluate i path i.argumentExpr with
    | error e => rfl
    | ok v => simp only [hdisplay]
  | input => simp only [perform, hk, hinput]
  | branch =>
    simp only [perform, hk, hcondition]
    cases i.body with
    | none => rfl
    | some body =>
      rcases s.condition i path with e | _ | _
      · rfl
      · cases i.otherwise with
        | none => rfl
        | some otherwise => simp only [hpush]
      · simp only [hpush]
  | loop =>
    simp only [perform, hk, hcondition]
    cases i.body with
    | none => rfl
    | some body =>
      rcases s.condition i path with e | _ | _
      · rfl
      · rfl
      · simp only [hpush]

/-! ## Steps -/

section

variable {f : Frame} {fs : List Frame}

theorem step_of_nil (hf : s.frames = []) : s.step = (.finished, { s with state := .finished }) := by
  unfold step
  rw [hf]

theorem step_of_done (hf : s.frames = f :: fs) (hi : f.instructions[f.next]? = none)
    (hl : f.loop = none) : s.step = (.running, { s with frames := fs }) := by
  unfold step
  rw [hf]
  simp only [hi, hl]

theorem step_of_again (hf : s.frames = f :: fs) (hi : f.instructions[f.next]? = none)
    (hl : f.loop = some i) (hc : s.cancelled = false) :
    s.step = { s with frames := fs }.execute i f.path := by
  unfold step
  rw [hf]
  simp only [hi, hl, hc, Bool.false_eq_true, if_false]

theorem step_of_next (hf : s.frames = f :: fs) (hi : f.instructions[f.next]? = some i)
    (hc : s.cancelled = false) :
    s.step = { s with frames := { f with next := f.next + 1 } :: fs }.execute i f.nextPath := by
  unfold step
  rw [hf]
  simp only [hi, hc, Bool.false_eq_true, if_false]

/-- A session that is cancelled refuses to check a loop again, and has left its body. -/
theorem step_of_again_cancelled (hf : s.frames = f :: fs) (hi : f.instructions[f.next]? = none)
    (hl : f.loop = some i) (hc : s.cancelled = true) :
    s.step = (.stopped (.cancelled f.path), { s with frames := fs }) := by
  unfold step
  rw [hf]
  simp only [hi, hl, hc, if_true]

theorem step_of_next_cancelled (hf : s.frames = f :: fs) (hi : f.instructions[f.next]? = some i)
    (hc : s.cancelled = true) : s.step = (.stopped (.cancelled f.nextPath), s) := by
  unfold step
  rw [hf]
  simp only [hi, hc, if_true]

theorem run_of_ready (h : s.state = .ready) (fuel : Nat) : s.run fuel = s.begin.steps fuel := by
  rw [run, h]

theorem begin_of_started (h : s.started = true) : s.begin = s :=
  if_pos h

theorem begin_of_not_started (h : s.started = false) :
    s.begin = { s with started := true }.emitAll (s.program.globals.map .styled) := by
  rw [begin, h]
  rfl

theorem answer_of_waiting (raw : String) (hw : s.state = .waiting x) :
    s.answer x raw = .ok { s.assign x (.ofInput raw) with state := .ready } := by
  unfold answer
  rw [hw]
  simp only [if_true]

end

end Session

end Pseudocode
