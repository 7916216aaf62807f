import Pseudocode.Proofs.Session.Dialogue

/-! # Presentation

Directives say how the instructions of a program are presented. A session reports them and keeps the
style of the instruction that it has entered last, but it does not go by them: with the directives
erased, it is a session of the program without directives, and replies the same to each demand.
-/

namespace Pseudocode

/-- Whether the event is about the execution and not about its presentation. -/
def Event.isPlain : Event → Bool
  | .styled _ => false
  | .entered _ | .displayed _ | .inputRequested _ | .assigned _ _ => true

def Program.bare (p : Program) : Program where
  instructions := p.instructions
  directives := []
  targets := []
  instructions_valid := p.instructions_valid
  directives_valid := rfl

theorem Program.bare_congr {p q : Program} (h : p.instructions = q.instructions) :
    p.bare = q.bare := by
  simp only [bare, h]

namespace Session

variable {s t : Session} {p q : Program} {c : Call} {e : RunError}

def bare (s : Session) : Session :=
  { s with
    program := s.program.bare
    events := s.events.filter Event.isPlain
    current := s.current.map fun (path, _) => (path, .default) }

theorem bare_start (p : Program) (cancelAt : Option Nat) :
    (start p cancelAt).bare = start p.bare cancelAt := rfl

/-! ## Sessions that no event cancels -/

/-- Nothing on the stack lacks anything, and no event cancels the session. -/
structure Free (s : Session) : Prop where
  complete : s.Complete
  cancelAt : s.cancelAt = none

theorem untouched_cancelAt : Untouched Session.cancelAt :=
  ⟨fun _ _ => rfl, fun _ _ _ _ _ => rfl⟩

theorem invariant_free : Invariant Free where
  begin h := ⟨invariant_complete.begin h.complete,
    (begin_keeps untouched_cancelAt.emit rfl).trans h.cancelAt⟩
  step h := ⟨invariant_complete.step h.complete,
    (untouched_cancelAt.moves (step_moves h.complete)).trans h.cancelAt⟩
  state _ h := ⟨h.complete, h.cancelAt⟩
  assign _ _ h := ⟨h.complete, h.cancelAt⟩
  cancel h := ⟨h.complete, h.cancelAt⟩

theorem free_start (p : Program) : (start p none).Free :=
  ⟨complete_start p none, rfl⟩

/-! ## Erasing the presentation -/

theorem emit_bare (h : s.cancelAt = none) {e : Event} (he : e.isPlain) :
    s.bare.emit e = (s.emit e).bare := by
  simp [emit, bare, h, he]

theorem emit_styled_bare (h : s.cancelAt = none) (d : Directive) :
    (s.emit (.styled d)).bare = s.bare := by
  simp [emit, bare, h, Event.isPlain]

theorem emitAll_styled_bare (h : s.cancelAt = none) (ds : List Directive) :
    (s.emitAll (ds.map .styled)).bare = s.bare := by
  induction ds generalizing s with
  | nil => rfl
  | cons d ds ih => exact (ih (s := s.emit (.styled d)) h).trans (emit_styled_bare h d)

theorem enter_bare (h : s.cancelAt = none) (i : Instruction) (path : Path) :
    s.bare.enter i path = (s.enter i path).bare := by
  have hstyled := emitAll_styled_bare h ((s.program.aimedAt path).filter (·.kind.appliesTo i.kind))
  have hcancel := (emitAll_keeps untouched_cancelAt.emit s
    (((s.program.aimedAt path).filter (·.kind.appliesTo i.kind)).map .styled)).trans h
  unfold enter
  simp only
  generalize s.emitAll _ = t at hstyled hcancel ⊢
  calc
    _ = { s.bare with current := some (path, .default) }.emit (.entered path) := rfl
    _ = { t.bare with current := some (path, .default) }.emit (.entered path) := by rw [hstyled]
    _ = _ :=
      emit_bare (s := { t with current := some (path, t.program.style path i.kind) }) hcancel rfl

theorem assign_bare (h : s.cancelAt = none) (x : String) (v : Value) :
    s.bare.assign x v = (s.assign x v).bare :=
  emit_bare (s := { s with environment := s.environment.insert x v }) h rfl

theorem perform_bare (h : s.cancelAt = none) (i : Instruction) (path : Path) :
    s.bare.perform i path = ((s.perform i path).1, (s.perform i path).2.bare) := by
  refine perform_map bare s i path rfl (assign_bare h) (fun _ => emit_bare h rfl) (fun x => ?_)
    (fun _ => rfl)
  rw [emit_bare h rfl]
  rfl

theorem execute_bare (h : s.cancelAt = none) (i : Instruction) (path : Path) :
    s.bare.execute i path = ((s.execute i path).1, (s.execute i path).2.bare) := by
  have hcancel := (untouched_cancelAt.enter s i path).trans h
  rw [execute, execute, enter_bare h, perform_bare hcancel]

theorem step_bare (h : s.cancelAt = none) : s.bare.step = (s.step.1, s.step.2.bare) := by
  have hframes : s.bare.frames = s.frames := rfl
  have hcancelled : s.bare.cancelled = s.cancelled := rfl
  unfold step
  rw [hframes, hcancelled]
  cases s.frames with
  | nil => rfl
  | cons f fs =>
    cases hi : f.instructions[f.next]? with
    | none =>
      cases hl : f.loop with
      | none =>
        simp only [hi, hl]
        rfl
      | some i =>
        simp only [hi, hl]
        split
        · rfl
        · exact execute_bare (s := { s with frames := fs }) h i f.path
    | some i =>
      simp only [hi]
      split
      · rfl
      · exact execute_bare (s := { s with frames := { f with next := f.next + 1 } :: fs }) h i
          f.nextPath

theorem steps_bare (h : s.Free) (fuel : Nat) :
    s.bare.steps fuel = ((s.steps fuel).1, (s.steps fuel).2.bare) := by
  induction fuel generalizing s with
  | zero => rfl
  | succ fuel ih =>
    have ht := invariant_free.step h
    rw [steps, steps, step_bare h.cancelAt]
    rcases hst : s.step with ⟨_ | _ | x | e, t⟩ <;> rw [hst] at ht
    · exact ih ht
    all_goals rfl

theorem begin_bare (h : s.Free) : s.bare.begin = s.begin.bare := by
  have hstarted : s.bare.started = s.started := rfl
  unfold begin
  rw [hstarted]
  split
  · rfl
  · exact (emitAll_styled_bare (s := { s with started := true }) h.cancelAt s.program.globals).symm

theorem Refuses.bare (h : s.Refuses c e) : s.bare.Refuses c e := by
  cases h with
  | awaiting hw => exact .awaiting hw
  | notRunnable ho => exact .notRunnable ho
  | notWaiting hw => exact .notWaiting hw
  | unexpected hw hne => exact .unexpected hw hne

theorem call_bare (h : s.Free) (c : Call) :
    s.bare.call c = ((s.call c).1, (s.call c).2.bare) := by
  rcases s.accepts_or_refuses c with ha | ⟨e, hr⟩
  · cases ha with
    | run fuel hs =>
      have hs' : s.bare.state = .ready := hs
      rw [call, call, run_of_ready hs, run_of_ready hs', begin_bare h,
        steps_bare (invariant_free.begin h)]
    | answer raw hw =>
      have hw' : s.bare.state = .waiting _ := hw
      rw [call, call, answer_of_waiting raw hw, answer_of_waiting raw hw']
      simp only [assign_bare h.cancelAt]
      rfl
    | cancel => rfl
  · rw [hr.call, hr.bare.call]

theorem respond_bare (h : s.Free) (d : Demand) :
    s.bare.respond d = ((s.respond d).1, (s.respond d).2.bare) := by
  cases d with
  | lookup name => rfl
  | _ => simp only [respond, call_bare h, Prod.map, id]

theorem converse_bare (h : s.Free) (ds : List Demand) :
    s.bare.converse ds = ((s.converse ds).1, (s.converse ds).2.bare) := by
  induction ds generalizing s with
  | nil => rfl
  | cons d ds ih =>
    have ht : (s.respond d).2.Free := by
      rw [respond_snd]
      exact invariant_free.after h _
    simp only [converse, respond_bare h, ih ht]

/-! ## Sessions of programs with the same instructions -/

/-- The sessions differ at most in presentation. -/
structure Alike (s t : Session) : Prop where
  state : s.state = t.state
  environment : s.environment = t.environment
  path : s.current.map (·.1) = t.current.map (·.1)
  events : s.events.toList.filter Event.isPlain = t.events.toList.filter Event.isPlain

theorem alike_of_bare_eq (h : s.bare = t.bare) : s.Alike t where
  state := (congrArg Session.state h :)
  environment := (congrArg Session.environment h :)
  path := by
    have hcurrent := congrArg (fun u : Session => u.current.map (·.1)) h
    simpa [bare, Function.comp_def] using hcurrent
  events := by
    have hevents := congrArg (fun u : Session => u.events.toList) h
    simpa [bare] using hevents

/-- Two programs with the same instructions reply the same to all demands, whatever their directives
are, and their sessions differ at most in presentation. -/
theorem converse_alike (h : p.instructions = q.instructions) (ds : List Demand) :
    ((start p none).converse ds).1 = ((start q none).converse ds).1 ∧
      ((start p none).converse ds).2.Alike ((start q none).converse ds).2 := by
  have hp := converse_bare (free_start p) ds
  have hq := converse_bare (free_start q) ds
  rw [bare_start, Program.bare_congr h] at hp
  rw [bare_start, hp] at hq
  obtain ⟨hreplies, hbare⟩ := Prod.mk.inj hq
  exact ⟨hreplies, alike_of_bare_eq hbare⟩

theorem converse_alike_styled : ∃ p q : Program,
    p.instructions = [.input "x" 3, .display (.var "x") 4] ∧
      q.instructions = [.input "x" 3, .display (.var "x") 4] ∧
      p.directives = [⟨.style .font .mientras, .font "Arial", "", 1⟩] ∧
      q.directives = [⟨.style .color .bloque, .hexColor "HFF0000", "2", 1⟩] ∧
      ((start p none).converse [.run 9, .answer "y" "1", .answer "x" "5", .lookup "x", .run 9]).1 =
        ((start q none).converse [.run 9, .answer "y" "1", .answer "x" "5", .lookup "x", .run 9]).1 ∧
      Alike ((start p none).converse [.run 9, .answer "y" "1", .answer "x" "5", .lookup "x", .run 9]).2
        ((start q none).converse [.run 9, .answer "y" "1", .answer "x" "5", .lookup "x", .run 9]).2 := by
  refine ⟨⟨_, _, [none], ?_, checkDirectivesFrom_eq_ok_iff.mpr ⟨?_, ?_⟩⟩,
    ⟨_, _, [some ⟨[2]⟩], ?_, checkDirectivesFrom_eq_ok_iff.mpr ⟨?_, ?_⟩⟩, rfl, rfl, rfl, rfl,
    converse_alike (by rfl) _⟩
  all_goals decide +kernel

end Session
end Pseudocode
