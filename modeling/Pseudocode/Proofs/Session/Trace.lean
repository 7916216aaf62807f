import Pseudocode.Proofs.Session.Groups
import Pseudocode.Proofs.Session.Location

/-! # The shape of the events

The events of a session are the directives for the whole program and then one group for each entry of an
instruction: the directives aimed at it, the entry, and what an instruction of its kind reports. Only
the last group may be incomplete, for want of a value or of an answer.
-/

namespace Pseudocode

inductive Ending where
  | complete
  /-- The expression of the instruction has no value. -/
  | failed (e : EvalError)
  /-- There is no answer yet. -/
  | pending (name : String)

/-- The state is one of a session whose last group ends so. -/
inductive State.Fits : State → Ending → Prop where
  | ready : Fits .ready .complete
  | finished : Fits .finished .complete
  | cancelled : Fits .cancelled .complete
  | waiting (name : String) : Fits (.waiting name) (.pending name)
  | failed (e : EvalError) : Fits .failed (.failed e)

theorem State.Fits.waiting_iff {state : State} {ending : Ending} (h : state.Fits ending) (x : String) :
    state = .waiting x ↔ ending = .pending x := by
  cases h <;> simp

namespace Program

/-- What is reported of the entry of the instruction `i` at `path`: the directives whose index is the
path and that style instructions of its kind, and the entry itself. -/
def announcement (p : Program) (i : Instruction) (path : Path) : List Event :=
  (p.directives.filter fun d =>
    Path.parse? d.index = some path ∧ d.kind.appliesTo i.kind).map .styled ++ [.entered path]

/-- The events are the group of an entry of the instruction `i` at `path`, under the variables `env` and
with the answers that the instruction takes. -/
inductive Group (p : Program) (env : Environment) (i : Instruction) (path : Path) :
    List String → Ending → List Event → Prop where
  | assign {e : Expr} {v : Value} :
    i.kind = .assign → i.value = some e → e.eval env = .ok v →
      Group p env i path [] .complete (p.announcement i path ++ [.assigned i.argument v])
  | assign_fails {e : Expr} {err : EvalError} :
    i.kind = .assign → i.value = some e → e.eval env = .error err →
      Group p env i path [] (.failed err) (p.announcement i path)
  | display {e : Expr} {v : Value} :
    i.kind = .display → i.argumentExpr = some e → e.eval env = .ok v →
      Group p env i path [] .complete (p.announcement i path ++ [.displayed v])
  | display_fails {e : Expr} {err : EvalError} :
    i.kind = .display → i.argumentExpr = some e → e.eval env = .error err →
      Group p env i path [] (.failed err) (p.announcement i path)
  | input (raw : String) :
    i.kind = .input →
      Group p env i path [raw] .complete
        (p.announcement i path ++
          [.inputRequested i.argument, .assigned i.argument (.ofInput raw)])
  | input_pending :
    i.kind = .input →
      Group p env i path [] (.pending i.argument)
        (p.announcement i path ++ [.inputRequested i.argument])
  | condition {c : Expr} {b : Bool} :
    i.kind.hasBlock → i.argumentExpr = some c → c.truth env i.kind.keyword = .ok b →
      Group p env i path [] .complete (p.announcement i path)
  | condition_fails {c : Expr} {err : EvalError} :
    i.kind.hasBlock → i.argumentExpr = some c → c.truth env i.kind.keyword = .error err →
      Group p env i path [] (.failed err) (p.announcement i path)

/-- The events are those of a session that has run and taken the answers: the directives for the whole
program, and groups, of which only the last one may be incomplete. -/
inductive Trace (p : Program) : List String → Ending → List Event → Prop where
  | begin : Trace p [] .complete ((p.directives.filter (·.isGlobal)).map .styled)
  | group {inputs more : List String} {es g : List Event} {i : Instruction} {path : Path}
      {ending : Ending} :
    Trace p inputs .complete es → p.find? path = some i →
      p.Group (.replay .empty es) i path more ending g → Trace p (inputs ++ more) ending (es ++ g)

end Program

namespace Program

variable {p : Program} {i : Instruction} {path : Path} {env : Environment} {x : String}
  {ending : Ending} {es g : List Event} {d : Directive} {inputs : List String}

theorem announcement_eq (p : Program) (i : Instruction) (path : Path) :
    p.announcement i path =
      ((p.aimedAt path).filter (·.kind.appliesTo i.kind)).map .styled ++ [.entered path] := by
  rw [announcement, aimedAt_eq_filter, List.filter_filter]
  congr 2
  apply List.filter_congr
  intro d _
  rw [d.target?_eq, Bool.eq_iff_iff]
  simp [and_comm]

theorem Group.ne_nil (h : p.Group env i path inputs ending g) : g ≠ [] := by
  cases h <;> simp [announcement]

theorem Group.answer (h : p.Group env i path inputs (.pending x) g) (raw : String) :
    p.Group env i path (inputs ++ [raw]) .complete (g ++ [.assigned x (.ofInput raw)]) := by
  cases h with
  | input_pending hk =>
    rw [List.append_assoc]
    exact .input raw hk

theorem Trace.answer (h : p.Trace inputs (.pending x) es) (raw : String) :
    p.Trace (inputs ++ [raw]) .complete (es ++ [.assigned x (.ofInput raw)]) := by
  cases h with
  | group ht hi hg =>
    rw [List.append_assoc, List.append_assoc]
    exact .group ht hi (hg.answer raw)

theorem Group.getLast?_eq_inputRequested_iff (h : p.Group env i path inputs ending g) :
    g.getLast? = some (.inputRequested x) ↔ ending = .pending x := by
  cases h <;> simp [announcement]

theorem Trace.getLast?_eq_inputRequested_iff (h : p.Trace inputs ending es) :
    es.getLast? = some (.inputRequested x) ↔ ending = .pending x := by
  cases h with
  | begin => simp
  | group ht hi hg =>
    rw [List.getLast?_append_of_ne_nil _ hg.ne_nil]
    exact hg.getLast?_eq_inputRequested_iff

/-! ## Directives that are reported -/

theorem mem_announcement : .styled d ∈ p.announcement i path ↔
    d ∈ p.directives ∧ Path.parse? d.index = some path ∧ d.kind.appliesTo i.kind := by
  simp [announcement]

theorem Group.of_mem_styled (h : p.Group env i path inputs ending g) (hd : .styled d ∈ g) :
    Path.parse? d.index = some path := by
  have hmem : .styled d ∈ p.announcement i path := by
    cases h <;> simpa using hd
  exact (mem_announcement.mp hmem).2.1

theorem Trace.of_mem_styled (h : p.Trace inputs ending es) (hd : .styled d ∈ es) :
    d.isGlobal ∨ ∃ path i, Path.parse? d.index = some path ∧ p.find? path = some i := by
  induction h with
  | begin =>
    have hglobal : d ∈ p.directives ∧ d.isGlobal := by simpa using hd
    exact .inl hglobal.2
  | group _ hi hg ih =>
    rcases List.mem_append.mp hd with hd | hd
    · exact ih hd
    · exact .inr ⟨_, _, hg.of_mem_styled hd, hi⟩

end Program

namespace Session

open Program

variable {s t u : Session} {i : Instruction} {path : Path} {o : Outcome} {p : Program}
  {es : List Event} {c : Call} {fuel : Nat} {inputs : List String}

/-! ## The group of an entry -/

theorem enter_announces (s : Session) (i : Instruction) (path : Path) :
    (s.enter i path).events.toList = s.events.toList ++ s.program.announcement i path := by
  rw [announcement_eq, enter]
  simp only [emit_events, emitAll_events, List.append_assoc]

theorem enter_environment (s : Session) (i : Instruction) (path : Path) :
    (s.enter i path).environment = s.environment :=
  emitAll_keeps (f := Session.environment) (fun _ _ => rfl) s _

theorem perform_group (path : Path) (hi : i.action?.isSome)
    (hu : u.events.toList = es ++ p.announcement i path) :
    ∃ ending g, p.Group u.environment i path [] ending g ∧ (u.perform i path).1.state.Fits ending ∧
      (u.perform i path).2.events.toList = es ++ g := by
  obtain ⟨a, ha⟩ := Option.isSome_iff_exists.mp hi
  cases a with
  | assign x e =>
    obtain ⟨hk, rfl, he⟩ := Instruction.action?_eq_assign.mp ha
    rw [perform_assign u ha]
    cases hv : e.eval u.environment with
    | error err => exact ⟨_, _, .assign_fails hk he hv, .failed err, hu⟩
    | ok v =>
      refine ⟨_, _, .assign hk he hv, .ready, ?_⟩
      rw [assign_events, hu, List.append_assoc]
  | display e =>
    obtain ⟨hk, he⟩ := Instruction.action?_eq_display.mp ha
    rw [perform_display u ha]
    cases hv : e.eval u.environment with
    | error err => exact ⟨_, _, .display_fails hk he hv, .failed err, hu⟩
    | ok v =>
      refine ⟨_, _, .display hk he hv, .ready, ?_⟩
      rw [emit_events, hu, List.append_assoc]
  | input x =>
    obtain ⟨hk, rfl⟩ := Instruction.action?_eq_input.mp ha
    rw [perform_input u ha]
    refine ⟨_, _, .input_pending hk, .waiting _, ?_⟩
    rw [emit_events, hu, List.append_assoc]
  | branch c body otherwise =>
    obtain ⟨hk, hc, -, -⟩ := Instruction.action?_eq_branch.mp ha
    have hblock : i.kind.hasBlock := by rw [hk]; rfl
    rw [perform_branch u ha]
    cases hv : c.truth u.environment i.kind.keyword with
    | error err => exact ⟨_, _, .condition_fails hblock hc hv, .failed err, hu⟩
    | ok b =>
      refine ⟨_, _, .condition hblock hc hv, ?_, ?_⟩
      · cases b <;> exact .ready
      · cases b <;> cases i.otherwise <;> exact hu
  | loop c body =>
    obtain ⟨hk, hc, -⟩ := Instruction.action?_eq_loop.mp ha
    have hblock : i.kind.hasBlock := by rw [hk]; rfl
    rw [perform_loop u ha]
    cases hv : c.truth u.environment i.kind.keyword with
    | error err => exact ⟨_, _, .condition_fails hblock hc hv, .failed err, hu⟩
    | ok b =>
      refine ⟨_, _, .condition hblock hc hv, ?_, ?_⟩
      · cases b <;> exact .ready
      · cases b <;> exact hu

theorem Live.stepped_group (h : s.Live) (hl : ∀ f ∈ s.frames, f.Located s.program) :
    s.stepped.events = s.events ∧ s.stepped.state.Fits .complete ∨
      ∃ i path ending g, s.program.find? path = some i ∧
        s.program.Group s.environment i path [] ending g ∧ s.stepped.state.Fits ending ∧
          s.stepped.events.toList = s.events.toList ++ g := by
  rw [stepped_events, stepped_state]
  cases hf : s.frames with
  | nil =>
    rw [step_of_nil hf]
    exact .inl ⟨rfl, .finished⟩
  | cons f fs =>
    cases he : f.upcoming? with
    | none =>
      rw [step_of_leave hf he]
      exact .inl ⟨rfl, .ready⟩
    | some q =>
      obtain ⟨i, path⟩ := q
      by_cases hc : s.cancelled
      · obtain ⟨gs, -, hst⟩ := step_of_cancelled hf he hc
        rw [hst]
        exact .inl ⟨rfl, .cancelled⟩
      · have hmem : f ∈ s.frames := by simp [hf]
        have hi : i.Complete := (h.complete f hmem).of_upcoming? he
        obtain ⟨ending, g, hg, hfits, hevents⟩ := perform_group path hi.action
          (enter_announces { s with frames := f.advance ++ fs } i path)
        rw [enter_environment] at hg
        rw [step_of_entry hf he (by simpa using hc)]
        exact .inr ⟨i, path, ending, g, (hl f hmem).of_upcoming? he, hg, hfits, hevents⟩

/-! ## Sessions and their traces -/

/-- The events of a session of the program with the answers that it has taken are a trace, unless it has
never run. -/
structure Told (p : Program) (inputs : List String) (s : Session) : Prop where
  program : s.program = p
  located : ∀ f ∈ s.frames, f.Located p
  environment : s.environment = .replay .empty s.events.toList
  idle : s.started = false → s.state = .ready ∧ s.events.toList = [] ∧ inputs = []
  trace : s.started = true →
    ∃ ending, p.Trace inputs ending s.events.toList ∧ s.state.Fits ending

theorem told_start (p : Program) (cancelAt : Option Nat) : (start p cancelAt).Told p [] where
  program := rfl
  located := located_start p cancelAt
  environment := rfl
  idle _ := ⟨rfl, rfl, rfl⟩
  trace h := nomatch h

theorem untouched_program : Untouched Session.program :=
  ⟨fun _ _ => rfl, fun _ _ _ _ _ => rfl⟩

namespace Told

theorem begin (h : s.Told p inputs) (hr : s.state = .ready) (hst : s.started = false) :
    s.begin.Told p inputs where
  program := (begin_keeps untouched_program.emit rfl).trans h.program
  located := by
    rw [begin_frames]
    exact h.located
  environment := (Extends.begin s).environment_eq h.environment
  idle hst' := by
    rw [begin_of_not_started hst, emitAll_started] at hst'
    cases hst'
  trace _ := by
    obtain rfl := h.program
    obtain ⟨-, hnone, rfl⟩ := h.idle hst
    have hevents :
        s.begin.events.toList = (s.program.directives.filter (·.isGlobal)).map .styled := by
      rw [begin_of_not_started hst, emitAll_events, hnone, globals_eq]
      rfl
    have hstate : s.begin.state = .ready := by
      rw [begin_of_not_started hst, emitAll_state]
      exact hr
    exact ⟨.complete, hevents ▸ .begin, hstate ▸ .ready⟩

theorem stepped (h : s.Told p inputs) (hl : s.Live) : s.stepped.Told p inputs where
  program := (untouched_program.moves (step_moves hl.complete)).trans h.program
  located := (step_moves hl.complete).located h.located
  environment :=
    ((Extends.of_moves (step_moves hl.complete)).trans (.of_eq rfl rfl)).environment_eq h.environment
  idle hst := by
    have hstarted : s.stepped.started = true :=
      (untouched_started.moves (step_moves hl.complete)).trans hl.started
    rw [hstarted] at hst
    cases hst
  trace _ := by
    obtain rfl := h.program
    obtain ⟨ending, ht, hfits⟩ := h.trace hl.started
    obtain rfl : ending = .complete := by
      rw [hl.state] at hfits
      cases hfits
      rfl
    rcases hl.stepped_group h.located with ⟨heq, hfits'⟩ | ⟨i, path, ending, g, hi, hg, hfits', heq⟩
    · exact ⟨.complete, heq ▸ ht, hfits'⟩
    · rw [h.environment] at hg
      have htrace := Trace.group ht hi hg
      rw [List.append_nil, ← heq] at htrace
      exact ⟨ending, htrace, hfits'⟩

theorem answer {x : String} (h : s.Told p inputs) (hw : s.state = .waiting x) (raw : String) :
    { s.assign x (.ofInput raw) with state := .ready }.Told p (inputs ++ [raw]) where
  program := h.program
  located := h.located
  environment := (Extends.assign s x _).environment_eq h.environment
  idle hst := by
    have hready := (h.idle hst).1
    rw [hw] at hready
    cases hready
  trace hst := by
    obtain ⟨ending, ht, hfits⟩ := h.trace hst
    obtain rfl : ending = .pending x := by
      rw [hw] at hfits
      cases hfits
      rfl
    have hevents := assign_events s x (.ofInput raw)
    exact ⟨.complete, hevents ▸ ht.answer raw, .ready⟩

end Told

theorem lasting_told (p : Program) : Lasting (Told p) where
  begin hr hst h := h.begin hr hst
  step hl h := h.stepped hl
  answer raw hw h := h.answer hw raw
  cancel h := ⟨h.program, h.located, h.environment, h.idle, h.trace⟩

theorem told_after (p : Program) (cancelAt : Option Nat) (calls : List Call) :
    ((start p cancelAt).after calls).Told p ((start p cancelAt).accepted calls) :=
  (lasting_told p).after [] (complete_start p cancelAt) (told_start p cancelAt) calls

/-! ## Sessions that have run -/

theorem invariant_started : Invariant fun s => s.Complete ∧ s.started = true where
  begin {s} h := ⟨invariant_complete.begin h.1, by rw [begin_of_started h.2]; exact h.2⟩
  step h := ⟨invariant_complete.step h.1, (untouched_started.moves (step_moves h.1)).trans h.2⟩
  state _ h := h
  assign _ _ h := h
  cancel h := h

theorem Told.started_of_run (h : s.Told p inputs) (hc : s.Complete) (fuel : Nat) :
    (s.run fuel).2.started = true := by
  cases hst : s.started with
  | true => exact (invariant_started.run ⟨hc, hst⟩ fuel).2
  | false =>
    have hr := (h.idle hst).1
    have hl := live_begin_of_ready hr hc
    rw [run_of_ready hr]
    exact (invariant_started.steps ⟨hl.complete, hl.started⟩ fuel).2

/-- A session has run if a run is among its calls: the first one is accepted. -/
theorem Told.started_after (h : s.Told p inputs) (hc : s.Complete) {calls : List Call}
    (hmem : .run fuel ∈ calls) : (s.after calls).started = true := by
  induction calls generalizing s inputs with
  | nil => cases hmem
  | cons c calls ih =>
    have hc' := invariant_complete.call hc c
    rcases List.mem_cons.mp hmem with rfl | hmem
    · exact (invariant_started.after ⟨hc', h.started_of_run hc fuel⟩ calls).2
    · exact ih ((lasting_told p).call inputs hc h c) hc' hmem

theorem Told.not_started_after (h : s.Told p inputs) (hc : s.Complete) (hst : s.started = false)
    {calls : List Call} (hmem : ∀ fuel, .run fuel ∉ calls) : (s.after calls).started = false := by
  induction calls generalizing s inputs with
  | nil => exact hst
  | cons c calls ih =>
    refine ih ((lasting_told p).call inputs hc h c) (invariant_complete.call hc c) ?_
      fun fuel hcall => hmem fuel (List.mem_cons_of_mem c hcall)
    rcases s.accepts_or_refuses c with ha | ⟨e, hr⟩
    · cases ha with
      | run fuel _ => exact absurd List.mem_cons_self (hmem fuel)
      | answer raw hw =>
        rw [(h.idle hst).1] at hw
        cases hw
      | cancel => exact hst
    · rw [hr.call]
      exact hst

end Session

/-- However a session is called, its events are a trace of the program with the answers that it has
taken once it has run, and none before; no directive is reported that is aimed at no instruction. -/
theorem Program.trace_after (p : Program) (cancelAt : Option Nat) (calls : List Call) :
    ((∀ fuel, .run fuel ∉ calls) →
        ((Session.start p cancelAt).after calls).events.toList = []) ∧
      (∀ fuel, .run fuel ∈ calls → ∃ ending,
        p.Trace ((Session.start p cancelAt).accepted calls) ending
            ((Session.start p cancelAt).after calls).events.toList ∧
          ((Session.start p cancelAt).after calls).state.Fits ending) ∧
      ∀ d path, Path.parse? d.index = some path → p.find? path = none →
        .styled d ∉ ((Session.start p cancelAt).after calls).events.toList := by
  have hc := Session.complete_start p cancelAt
  have hstart := Session.told_start p cancelAt
  have htold := Session.told_after p cancelAt calls
  refine ⟨fun hmem => ?_, fun fuel hmem => ?_, fun d path hd hnone hstyled => ?_⟩
  · exact (htold.idle (hstart.not_started_after hc rfl hmem)).2.1
  · exact htold.trace (hstart.started_after hc hmem)
  · cases hst : ((Session.start p cancelAt).after calls).started with
    | false =>
      rw [(htold.idle hst).2.1] at hstyled
      cases hstyled
    | true =>
      obtain ⟨ending, htrace, -⟩ := htold.trace hst
      rcases htrace.of_mem_styled hstyled with hglobal | ⟨path', i, hd', hi⟩
      · rw [← d.target?_eq, Directive.target?, if_pos hglobal] at hd
        cases hd
      · obtain rfl := Option.some.inj (hd'.symm.trans hd)
        rw [hi] at hnone
        cases hnone

end Pseudocode
