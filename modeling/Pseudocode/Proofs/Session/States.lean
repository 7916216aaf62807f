import Pseudocode.Proofs.Session.Trace

/-! # What the state of a session says

Between two calls the state tells where a session is: it waits for the input that it has asked for last,
and it is finished once nothing is left on the stack. The sequence at the bottom of the stack is the body
of no loop, so a step that enters an instruction, or refuses to, leaves something on the stack.
-/

namespace Pseudocode

/-- The stack goes down to a sequence that is the body of no loop. -/
inductive Frame.Grounded : List Frame → Prop where
  | base {f : Frame} : f.loop = none → Grounded [f]
  | push (f : Frame) {fs : List Frame} : Grounded fs → Grounded (f :: fs)

namespace Frame.Grounded

variable {f : Frame} {fs : List Frame} {q : Instruction × Path}

theorem ne_nil (h : Grounded fs) : fs ≠ [] := by
  cases h <;> simp

theorem pop (h : Grounded (f :: fs)) : f.loop = none ∧ fs = [] ∨ Grounded fs := by
  cases h with
  | base hl => exact .inl ⟨hl, rfl⟩
  | push _ hfs => exact .inr hfs

theorem replace (h : Grounded (f :: fs)) (n : Nat) : Grounded ({ f with next := n } :: fs) := by
  rcases h.pop with ⟨hl, rfl⟩ | hfs
  · exact .base hl
  · exact .push _ hfs

theorem of_loop (h : Grounded (f :: fs)) (hl : f.loop.isSome) : Grounded fs := by
  rcases h.pop with ⟨hnone, -⟩ | hfs
  · simp [hnone] at hl
  · exact hfs

theorem advance (h : Grounded (f :: fs)) (he : f.upcoming? = some q) :
    Grounded (f.advance ++ fs) := by
  obtain ⟨-, -, hadvance⟩ | ⟨-, hl, -, hadvance⟩ := upcoming?_cases he
  · rw [hadvance]
    exact h.replace _
  · rw [hadvance]
    exact h.of_loop (by simp [hl])

end Frame.Grounded

namespace Session

variable {s t : Session} {o : Outcome} {i : Instruction} {path : Path} {f : Frame} {fs : List Frame}
  {inputs : List String}

/-! ## What is left on the stack -/

theorem grounded_of_cancelled (hg : Frame.Grounded s.frames) (hf : s.frames = f :: fs)
    (he : f.upcoming? = some (i, path)) (hc : s.cancelled) : Frame.Grounded s.step.2.frames := by
  obtain ⟨hi, -, -⟩ | ⟨hi, hl, -, -⟩ := Frame.upcoming?_cases he
  · rw [step_of_next_cancelled hf hi hc]
    exact hg
  · rw [step_of_again_cancelled hf hi hl hc]
    exact (hf ▸ hg).of_loop (by simp [hl])

/-- A step leaves the stack with its bottom, or takes the last sequence off and has more to run. -/
theorem Live.stepped_grounded (h : s.Live) (hg : Frame.Grounded s.frames) :
    s.step.1 = .running ∧ s.stepped.frames = [] ∨
      s.step.1 ≠ .finished ∧ Frame.Grounded s.stepped.frames := by
  rw [stepped_frames]
  have hm := step_moves h.complete
  generalize hst : s.step = ot at hm ⊢
  obtain ⟨o, t⟩ := ot
  cases hm with
  | finish hf => exact absurd hf hg.ne_nil
  | leave hf _ =>
    rw [hf] at hg
    rcases hg.pop with ⟨-, rfl⟩ | hfs
    · exact .inl ⟨rfl, rfl⟩
    · exact .inr ⟨nofun, hfs⟩
  | cancel hf he hc _ =>
    have hkept := grounded_of_cancelled hg hf he hc
    rw [hst] at hkept
    exact .inr ⟨nofun, hkept⟩
  | enter hf he _ hp =>
    have hrest := (hf ▸ hg).advance he
    refine .inr ⟨?_, ?_⟩
    · rintro rfl
      cases hp
    · rcases hp.frames with hframes | ⟨g, -, hframes⟩
      · rw [hframes, enter_frames]
        exact hrest
      · rw [hframes, enter_frames]
        exact .push g hrest

def Stacked (s : Session) : Prop :=
  Frame.Grounded s.frames ∨ s.frames = []

theorem Stacked.stepped (h : s.Stacked) (hl : s.Live) : s.stepped.Stacked := by
  rcases h with hg | hnil
  · rcases hl.stepped_grounded hg with ⟨-, hnil⟩ | ⟨-, hg⟩
    · exact .inr hnil
    · exact .inl hg
  · rw [Stacked, stepped_frames, step_of_nil hnil]
    exact .inr hnil

theorem lasting_stacked : Lasting fun _ s => s.Stacked where
  begin _ _ h := by rwa [Stacked, begin_frames]
  step hl h := h.stepped hl
  answer _ _ h := h
  cancel h := h

/-! ## Calls that have come to an end -/

def Ends (s : Session) : Call → Prop
  | .run fuel => (s.run fuel).1 ≠ .running
  | .answer _ _ | .cancel => True

def Returns (s : Session) : List Call → Prop
  | [] => True
  | c :: calls => s.Ends c ∧ (s.call c).2.Returns calls

instance (s : Session) : ∀ c, Decidable (s.Ends c)
  | .run _ => inferInstanceAs (Decidable (_ ≠ _))
  | .answer _ _ | .cancel => inferInstanceAs (Decidable True)

instance decidableReturns (s : Session) : ∀ calls, Decidable (s.Returns calls)
  | [] => inferInstanceAs (Decidable True)
  | c :: calls =>
    have := decidableReturns (s.call c).2 calls
    inferInstanceAs (Decidable (s.Ends c ∧ (s.call c).2.Returns calls))

/-- The session is finished and its stack empty, or neither. -/
def Poised (s : Session) : Prop :=
  s.state ≠ .finished ∧ Frame.Grounded s.frames ∨ s.state = .finished ∧ s.frames = []

theorem Poised.finished_iff (h : s.Poised) : s.state = .finished ↔ s.frames = [] := by
  rcases h with ⟨hstate, hg⟩ | ⟨hstate, hnil⟩
  · simp [hstate, hg.ne_nil]
  · simp [hstate, hnil]

theorem Live.stepped_poised (h : s.Live) (hs : s.Stacked) (hr : s.step.1 ≠ .running) :
    s.stepped.Poised := by
  rcases hs with hg | hnil
  · rcases h.stepped_grounded hg with ⟨hrunning, -⟩ | ⟨ho, hg⟩
    · exact absurd hrunning hr
    · refine .inl ⟨?_, hg⟩
      rw [stepped_state]
      rcases hst : s.step.1 with _ | _ | x | e
      · nofun
      · exact absurd hst ho
      · nofun
      · cases e <;> nofun
  · rw [Poised, stepped_state, stepped_frames, step_of_nil hnil]
    exact .inr ⟨rfl, hnil⟩

theorem Poised.run (h : s.Poised) (hc : s.Complete) (hr : s.state = .ready) {fuel : Nat}
    (he : (s.run fuel).1 ≠ .running) : (s.run fuel).2.Poised := by
  have hg : Frame.Grounded s.frames := by
    rcases h with ⟨-, hg⟩ | ⟨hfinished, -⟩
    · exact hg
    · rw [hr] at hfinished
      cases hfinished
  have hl := live_begin_of_ready hr hc
  have hstacked : s.begin.Stacked := .inl (by rwa [begin_frames])
  rw [run_of_ready hr] at he ⊢
  obtain ⟨n, t, hn, hst | ⟨hrunning, hst⟩⟩ := hl.steps_cases fuel
  · rw [hst] at he
    exact absurd rfl he
  · rw [hst]
    have ht : t.Stacked := lasting_stacked.turns [] hl hn rfl hstacked
    exact (hl.turns hn).stepped_poised ht hrunning

theorem Poised.call (h : s.Poised) (hc : s.Complete) {c : Call} (he : s.Ends c) :
    (s.call c).2.Poised := by
  rcases s.accepts_or_refuses c with ha | ⟨e, hr⟩
  · cases ha with
    | run fuel hr => exact h.run hc hr he
    | answer raw hw =>
      rw [Session.call, answer_of_waiting raw hw]
      rcases h with ⟨-, hg⟩ | ⟨hfinished, -⟩
      · exact .inl ⟨by simp, hg⟩
      · rw [hw] at hfinished
        cases hfinished
    | cancel => exact h
  · rw [hr.call]
    exact h

theorem Poised.after (h : s.Poised) (hc : s.Complete) {calls : List Call} (hr : s.Returns calls) :
    (s.after calls).Poised := by
  induction calls generalizing s with
  | nil => exact h
  | cons c calls ih => exact ih (h.call hc hr.1) (invariant_complete.call hc c) hr.2

/-! ## Cancelled sessions -/

theorem Moves.cancelled (h : Moves s o t) (ho : o.state = .cancelled) : t.cancelled := by
  cases h with
  | finish _ => cases ho
  | leave _ _ => cases ho
  | cancel _ _ hc _ => exact hc
  | enter _ _ _ hp => cases hp <;> cases ho

theorem lasting_cancelled : Lasting fun _ s => s.state = .cancelled → s.cancelled where
  begin {_ s} hr hst _ hcancelled := by
    rw [begin_of_not_started hst, emitAll_state] at hcancelled
    rw [show s.state = .cancelled from hcancelled] at hr
    cases hr
  step hl _ hcancelled := (step_moves hl.complete).cancelled hcancelled
  answer _ _ _ hcancelled := nomatch hcancelled
  cancel _ _ := rfl

/-! ## Sessions that wait -/

/-- A session waits for an input exactly if its last event is the request for it. -/
theorem Told.waiting_iff {p : Program} (h : s.Told p inputs) (x : String) :
    s.state = .waiting x ↔ s.events.toList.getLast? = some (.inputRequested x) := by
  cases hst : s.started with
  | false =>
    obtain ⟨hready, hnone, -⟩ := h.idle hst
    simp [hready, hnone]
  | true =>
    obtain ⟨ending, htrace, hfits⟩ := h.trace hst
    rw [htrace.getLast?_eq_inputRequested_iff]
    exact hfits.waiting_iff x

/-! ## States between calls -/

/-- What the state of a session says about the session. -/
structure Consistent (s : Session) : Prop where
  waiting : ∀ x, s.state = .waiting x ↔ s.events.toList.getLast? = some (.inputRequested x)
  finished : s.state = .finished ↔ s.frames = []
  cancelled : s.state = .cancelled → s.cancelled
  /-- A session that is over refuses whatever it is called for, now and later. -/
  refuses : s.state.isOver → ∀ later c, c ≠ .cancel →
    ∃ e, (s.after later).call c = (.stopped e, s.after later)
  /-- A session that is over stays as it is. -/
  stays : s.state.isOver → ∀ later, (s.after later).state = s.state ∧
    (s.after later).environment = s.environment ∧ (s.after later).events = s.events ∧
      (s.after later).current = s.current

/-- However a session is called, its state between the calls says where it is. -/
theorem consistent_after (p : Program) (cancelAt : Option Nat) {calls : List Call}
    (h : (start p cancelAt).Returns calls) : ((start p cancelAt).after calls).Consistent where
  waiting := (told_after p cancelAt calls).waiting_iff
  finished := by
    have hpoised : (start p cancelAt).Poised := .inl ⟨nofun, .base rfl⟩
    exact (hpoised.after (complete_start p cancelAt) h).finished_iff
  cancelled :=
    lasting_cancelled.after [] (complete_start p cancelAt) (fun hcancelled => nomatch hcancelled) calls
  refuses hover later c hc := by
    obtain ⟨b, hlater⟩ := after_of_isOver hover later
    obtain ⟨e, hr⟩ := refuses_of_isOver (s := { (start p cancelAt).after calls with cancelled := b })
      hover hc
    rw [hlater]
    exact ⟨e, hr.call⟩
  stays hover later := by
    obtain ⟨b, hlater⟩ := after_of_isOver hover later
    rw [hlater]
    exact ⟨rfl, rfl, rfl, rfl⟩

/-- An endless loop that is cancelled upon its seventh event, with calls that are refused before and
after. -/
theorem consistent_after_loop : ∃ p : Program,
    p.instructions = [.input "x" 1,
      .loop (.literal (.boolean true)) [.assign "x" (.literal (.integer 1)) 3] 2] ∧
      (start p (some 7)).Returns [.answer "x" "0", .run 1, .run 1, .answer "y" "0", .answer "x" "5",
        .run 40, .answer "x" "6"] ∧
      ((start p (some 7)).after [.answer "x" "0", .run 1, .run 1, .answer "y" "0", .answer "x" "5",
        .run 40, .answer "x" "6"]).state = .cancelled ∧
      ((start p (some 7)).after [.answer "x" "0", .run 1, .run 1, .answer "y" "0", .answer "x" "5",
        .run 40, .answer "x" "6"]).Consistent := by
  refine ⟨⟨_, [], [], ?_, rfl⟩, rfl, ?_, ?_, consistent_after _ _ ?_⟩
  all_goals decide +kernel

end Session
end Pseudocode
