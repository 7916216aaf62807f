import Pseudocode.Proofs.Program.Offences
import Pseudocode.Proofs.Session.Trace
import Pseudocode.Proofs.View.Flowchart

/-! # The instruction entered last

Instructions are numbered in four places: on the stack of a session, where a sequence counts on from those
numbered before it, in the search along a path, in the validation of a tree, and in a flowchart. All of
them give an instruction the same path. So the path that a session shows as its current one leads to the
instruction that it has entered last.
-/

namespace Pseudocode

def Event.entry? : Event → Option Path
  | .entered path => some path
  | _ => none

namespace Session

variable {s t : Session} {i : Instruction} {path : Path} {o : Outcome} {p : Program} {fuel : Nat}
  {es : List (Instruction × Path)} {e : Instruction × Path}

/-! ## Entries -/

def entering? (s : Session) : Option (Instruction × Path) :=
  match s.frames with
  | [] => none
  | f :: _ => if s.cancelled then none else f.upcoming?

def entriesOfSteps : (fuel : Nat) → Session → List (Instruction × Path)
  | 0, _ => []
  | fuel + 1, s =>
    s.entering?.toList ++
      match s.step with
      | (.running, s) => entriesOfSteps fuel s
      | _ => []

def entriesOfCall (s : Session) : Call → List (Instruction × Path)
  | .run fuel =>
    match s.state with
    | .ready => s.begin.entriesOfSteps fuel
    | _ => []
  | .answer _ _ | .cancel => []

def entries (s : Session) : List Call → List (Instruction × Path)
  | [] => []
  | c :: calls => s.entriesOfCall c ++ (s.call c).2.entries calls

theorem Refuses.entriesOfCall {c : Call} {e : RunError} (h : s.Refuses c e) :
    s.entriesOfCall c = [] := by
  cases h with
  | awaiting hw => simp only [Session.entriesOfCall, hw]
  | notRunnable ho => cases hs : s.state <;> simp_all [Session.entriesOfCall, State.isOver]
  | notWaiting _ => rfl
  | unexpected _ _ => rfl

theorem exists_frame_of_entering (h : s.entering? = some e) :
    ∃ f fs, s.frames = f :: fs ∧ f.upcoming? = some e ∧ s.cancelled = false := by
  unfold entering? at h
  split at h
  case h_1 => cases h
  case h_2 f fs hf =>
    split at h
    case isTrue => cases h
    case isFalse hc => exact ⟨f, fs, hf, h, by simpa using hc⟩

theorem find?_of_entering (hl : ∀ f ∈ s.frames, f.Located p) (h : s.entering? = some e) :
    p.find? e.2 = some e.1 := by
  obtain ⟨f, fs, hf, he, -⟩ := exists_frame_of_entering h
  exact (hl f (by simp [hf])).of_upcoming? he

theorem step_performs (hc : s.Complete) (h : s.entering? = some e) :
    ∃ fs, Performs ({ s with frames := fs }.enter e.1 e.2) e.1 e.2 s.step.1 s.step.2 := by
  obtain ⟨f, fs, hf, he, hrunning⟩ := exists_frame_of_entering h
  have hi : e.1.Complete := (hc f (by simp [hf])).of_upcoming? he
  refine ⟨f.advance ++ fs, ?_⟩
  rw [step_of_entry hf he hrunning]
  exact performs_of_action? _ e.2 hi.action

theorem step_of_not_entering (h : s.entering? = none) :
    ∃ fs state, s.step.2 = { s with frames := fs, state := state } := by
  unfold entering? at h
  split at h
  case h_1 hf => exact ⟨[], .finished, by rw [step_of_nil hf, ← hf]⟩
  case h_2 f fs hf =>
    cases he : f.upcoming? with
    | none => exact ⟨fs, s.state, by rw [step_of_leave hf he]⟩
    | some q =>
      have hc : s.cancelled := by
        rw [he] at h
        simpa using h
      obtain ⟨gs, -, hst⟩ := step_of_cancelled hf he hc
      exact ⟨gs, s.state, by rw [hst]⟩

/-! ## What shows of the entries -/

def enteredPaths (s : Session) : List Path :=
  s.events.toList.filterMap Event.entry?

theorem entry?_styled (ds : List Directive) : (ds.map Event.styled).filterMap Event.entry? = [] := by
  simp [Event.entry?]

theorem enteredPaths_emit {e : Event} (h : e.entry? = none) :
    (s.emit e).enteredPaths = s.enteredPaths := by
  simp [enteredPaths, h]

theorem enteredPaths_begin (s : Session) : s.begin.enteredPaths = s.enteredPaths := by
  cases hst : s.started with
  | true => rw [begin_of_started hst]
  | false =>
    rw [enteredPaths, begin_of_not_started hst, emitAll_events, List.filterMap_append, entry?_styled,
      List.append_nil]
    rfl

theorem enteredPaths_enter (s : Session) (i : Instruction) (path : Path) :
    (s.enter i path).enteredPaths = s.enteredPaths ++ [path] := by
  rw [enteredPaths, enter_announces, Program.announcement, List.filterMap_append,
    List.filterMap_append, entry?_styled, List.nil_append]
  rfl

theorem current_enter (s : Session) (i : Instruction) (path : Path) :
    (s.enter i path).current = some (path, s.program.style path i.kind) :=
  congrArg (fun p : Program => some (path, p.style path i.kind)) (untouched_program.enter s i path)

theorem Performs.shows (h : Performs s i path o t) :
    t.enteredPaths = s.enteredPaths ∧ t.current = s.current := by
  cases h with
  | assign _ _ | display _ _ | input _ => exact ⟨enteredPaths_emit rfl, rfl⟩
  | descend _ | skip _ | fail _ => exact ⟨rfl, rfl⟩

/-! ## What a session keeps of its entries -/

/-- The session of the program `p` has made the entries `es`. -/
structure Entered (p : Program) (es : List (Instruction × Path)) (s : Session) : Prop where
  program : s.program = p
  located : ∀ f ∈ s.frames, f.Located p
  /-- Each entry is reported with its path. -/
  reported : s.enteredPaths = es.map Prod.snd
  /-- The path at which an instruction is entered leads to it. -/
  found : ∀ e ∈ es, p.find? e.2 = some e.1
  /-- What is current is the entry made last, in its style. -/
  current : s.current = es.getLast?.map fun e => (e.2, p.style e.2 e.1.kind)

theorem entered_start (p : Program) (cancelAt : Option Nat) : (start p cancelAt).Entered p [] :=
  ⟨rfl, located_start p cancelAt, rfl, nofun, rfl⟩

namespace Entered

theorem of_eq (h : s.Entered p es) (hprogram : t.program = s.program) (hframes : t.frames = s.frames)
    (hreported : t.enteredPaths = s.enteredPaths) (hcurrent : t.current = s.current) :
    t.Entered p es :=
  ⟨hprogram.trans h.program, hframes ▸ h.located, hreported.trans h.reported, h.found,
    hcurrent.trans h.current⟩

theorem begin (h : s.Entered p es) : s.begin.Entered p es :=
  h.of_eq (begin_keeps untouched_program.emit rfl) s.begin_frames s.enteredPaths_begin
    (begin_keeps (f := Session.current) (fun _ _ => rfl) rfl)

theorem step (h : s.Entered p es) (hc : s.Complete) :
    s.step.2.Entered p (es ++ s.entering?.toList) := by
  have hprogram := (untouched_program.moves (step_moves hc)).trans h.program
  have hlocated := (step_moves hc).located h.located
  cases he : s.entering? with
  | none =>
    obtain ⟨fs, state, hst⟩ := step_of_not_entering he
    rw [Option.toList_none, List.append_nil]
    exact ⟨hprogram, hlocated, by rw [hst]; exact h.reported, h.found, by rw [hst]; exact h.current⟩
  | some e =>
    obtain ⟨fs, hp⟩ := step_performs hc he
    obtain ⟨hreported, hcurrent⟩ := hp.shows
    rw [enteredPaths_enter] at hreported
    rw [current_enter] at hcurrent
    refine ⟨hprogram, hlocated, ?_, ?_, ?_⟩
    · rw [hreported, List.map_append]
      exact congrArg (· ++ [e.2]) h.reported
    · rw [Option.toList_some, List.forall_mem_append, List.forall_mem_singleton]
      exact ⟨h.found, find?_of_entering h.located he⟩
    · rw [hcurrent, Option.toList_some, List.getLast?_append, ← h.program]
      rfl

theorem steps (h : s.Entered p es) (hc : s.Complete) (fuel : Nat) :
    (s.steps fuel).2.Entered p (es ++ s.entriesOfSteps fuel) := by
  induction fuel generalizing s es with
  | zero =>
    rw [entriesOfSteps, List.append_nil]
    exact h
  | succ fuel ih =>
    have ht := h.step hc
    have hct := invariant_complete.step hc
    rw [Session.steps, entriesOfSteps, ← List.append_assoc]
    rcases hst : s.step with ⟨_ | _ | x | e, t⟩ <;> rw [hst] at ht hct
    · exact ih ht hct
    all_goals rw [List.append_nil]
    · exact ht
    · exact ht
    · exact ht.of_eq rfl rfl rfl rfl

theorem call (h : s.Entered p es) (hc : s.Complete) (c : Call) :
    (s.call c).2.Entered p (es ++ s.entriesOfCall c) := by
  rcases s.accepts_or_refuses c with ha | ⟨e, hr⟩
  · cases ha with
    | run fuel hready =>
      rw [Session.call, run_of_ready hready]
      simp only [entriesOfCall, hready]
      exact h.begin.steps (invariant_complete.begin hc) fuel
    | answer raw hw =>
      rw [Session.call, answer_of_waiting raw hw, entriesOfCall, List.append_nil]
      exact h.of_eq rfl rfl (enteredPaths_emit rfl) rfl
    | cancel =>
      rw [entriesOfCall, List.append_nil]
      exact h.of_eq rfl rfl rfl rfl
  · rw [hr.call, hr.entriesOfCall, List.append_nil]
    exact h

theorem after (h : s.Entered p es) (hc : s.Complete) (calls : List Call) :
    (s.after calls).Entered p (es ++ s.entries calls) := by
  induction calls generalizing s es with
  | nil =>
    rw [entries, List.append_nil]
    exact h
  | cons c calls ih =>
    rw [entries, ← List.append_assoc]
    exact ih (h.call hc c) (invariant_complete.call hc c)

end Entered

theorem entered_after (p : Program) (cancelAt : Option Nat) (calls : List Call) :
    ((start p cancelAt).after calls).Entered p ((start p cancelAt).entries calls) :=
  (entered_start p cancelAt).after (complete_start p cancelAt) calls

end Session

namespace Program

/-- All agree about paths: the path that a validation reports is the one by which the instruction is
found, and the one that a session shows as current leads to the instruction that it has entered last,
in its style, and belongs to one node of the flowchart, that of the same instruction. -/
theorem paths_agree :
    (∀ is e, checkInstructions is = some e ↔
      ∃ path i, Instruction.find? is path.positions = some i ∧ errorAt? path i = some e ∧
        ∀ q j, Instruction.find? is q.positions = some j → q < path → errorAt? q j = none) ∧
    ∀ (p : Program) cancelAt calls r style,
      ((Session.start p cancelAt).after calls).current = some (r, style) →
      ∃ i, ((Session.start p cancelAt).entries calls).getLast? = some (i, r) ∧
        ((Session.start p cancelAt).after calls).enteredPaths.getLast? = some r ∧
        p.find? r = some i ∧ style = p.style r i.kind ∧
        ∃ n, (Flowchart.ofProgram p).nodes.filter (·.path = r) = [Flowchart.node p n r i] ∧
          (Flowchart.node p n r i).style = style := by
  refine ⟨fun is e => checkInstructions_eq_some_iff, fun p cancelAt calls r style hcurrent => ?_⟩
  have hentered := Session.entered_after p cancelAt calls
  rw [hentered.current] at hcurrent
  obtain ⟨⟨i, r'⟩, hlast, heq⟩ := Option.map_eq_some_iff.mp hcurrent
  obtain ⟨rfl, rfl⟩ := Prod.mk.inj heq
  have hfound := hentered.found _ (List.mem_of_getLast? hlast)
  obtain ⟨n, hn⟩ := Flowchart.filter_nodes hfound
  refine ⟨i, hlast, ?_, hfound, rfl, n, hn, Flowchart.node_style p n r' i⟩
  rw [hentered.reported, List.getLast?_map, hlast]
  rfl

/-- A program that enters the second block of a branch, and there the second block of another one, whose
first block is empty. -/
theorem paths_agree_otherwise : ∃ (p : Program) (r : Path) (style : Style) (i : Instruction),
    p.instructions = [.branch (.literal (.boolean false)) [.display (.literal (.integer 1)) 2]
      (some [.branch (.literal (.boolean false)) [] (some [.display (.literal (.integer 2)) 5]) 4]) 1] ∧
      ((Session.start p none).after [.run 3]).current = some (r, style) ∧
      r.positions = [1, 2, 1] ∧ p.find? r = some i ∧ i.line = 5 ∧
      ∃ n, (Flowchart.ofProgram p).nodes.filter (·.path = r) = [Flowchart.node p n r i] ∧
        (Flowchart.node p n r i).style = style := by
  let p : Program := ⟨[.branch (.literal (.boolean false)) [.display (.literal (.integer 1)) 2]
    (some [.branch (.literal (.boolean false)) [] (some [.display (.literal (.integer 2)) 5]) 4]) 1],
    [], [], by decide +kernel, rfl⟩
  have hpath : ((Session.start p none).after [.run 3]).current.map (·.1.positions) = some [1, 2, 1] := by
    decide +kernel
  have hline : (p.find? ⟨[1, 2, 1]⟩).map (·.line) = some 5 := by decide +kernel
  obtain ⟨⟨⟨positions⟩, style⟩, hcurrent, rfl⟩ := Option.map_eq_some_iff.mp hpath
  obtain ⟨i, -, -, hfound, -, hnode⟩ := paths_agree.2 p none [.run 3] _ style hcurrent
  rw [hfound] at hline
  exact ⟨p, _, style, i, rfl, hcurrent, rfl, hfound, Option.some.inj hline, hnode⟩

end Program
end Pseudocode
