import Pseudocode.Proofs.Session.Turns

/-! # What a session does

In its calls a session begins, makes steps, takes the answers that it waits for, and is cancelled. What it
keeps in all of these it keeps whatever it is asked for. A call that does not fit the state of the
session is refused, and one that is over refuses them all.
-/

namespace Pseudocode

def State.isOver : State → Bool
  | .finished | .cancelled | .failed => true
  | .ready | .waiting _ => false

namespace Session

variable {s t : Session} {c : Call} {e : RunError} {o : Outcome} {inputs rest : List String}
  {fuel n : Nat} {x : String}

/-! ## Refused calls -/

inductive Refuses (s : Session) : Call → RunError → Prop where
  | awaiting {x : String} {fuel : Nat} :
    s.state = .waiting x → Refuses s (.run fuel) (.awaitingInput x)
  | notRunnable {fuel : Nat} :
    s.state.isOver → Refuses s (.run fuel) (.notRunnable s.state.describe)
  | notWaiting {name raw : String} :
    (∀ x, s.state ≠ .waiting x) → Refuses s (.answer name raw) .notWaiting
  | unexpected {x name raw : String} :
    s.state = .waiting x → x ≠ name → Refuses s (.answer name raw) (.unexpectedInput x name)

inductive Accepts (s : Session) : Call → Prop where
  | run (fuel : Nat) : s.state = .ready → Accepts s (.run fuel)
  | answer {x : String} (raw : String) : s.state = .waiting x → Accepts s (.answer x raw)
  | cancel : Accepts s .cancel

/-- A call that is refused gives its error and changes nothing. -/
theorem Refuses.call (h : s.Refuses c e) : s.call c = (.stopped e, s) := by
  cases h with
  | awaiting hw => simp only [Session.call, run, hw]
  | notRunnable ho =>
    cases hs : s.state <;> simp_all [Session.call, run, State.isOver]
  | notWaiting _ => simp only [Session.call, answer]
  | unexpected hw hne => simp only [Session.call, answer, hw, hne, if_false]

theorem accepts_or_refuses (s : Session) (c : Call) : s.Accepts c ∨ ∃ e, s.Refuses c e := by
  cases c with
  | cancel => exact .inl .cancel
  | run fuel =>
    cases hs : s.state with
    | ready => exact .inl (.run fuel hs)
    | waiting x => exact .inr ⟨_, .awaiting hs⟩
    | finished | cancelled | failed => exact .inr ⟨_, .notRunnable (by rw [hs]; rfl)⟩
  | answer name raw =>
    cases hs : s.state with
    | waiting x =>
      by_cases hx : x = name
      · exact .inl (.answer raw (hx ▸ hs))
      · exact .inr ⟨_, .unexpected hs hx⟩
    | _ => exact .inr ⟨_, .notWaiting (by simp [hs])⟩

def taken (s : Session) : Call → List String
  | .answer name raw =>
    match s.answer name raw with
    | .ok _ => [raw]
    | .error _ => []
  | .run _ | .cancel => []

def accepted (s : Session) : List Call → List String
  | [] => []
  | c :: calls => s.taken c ++ (s.call c).2.accepted calls

theorem accepted_append (s : Session) (calls calls' : List Call) :
    s.accepted (calls ++ calls') = s.accepted calls ++ (s.after calls).accepted calls' := by
  induction calls generalizing s with
  | nil => rfl
  | cons c calls ih => rw [List.cons_append, accepted, accepted, after, ih, List.append_assoc]

theorem taken_of_waiting (raw : String) (hw : s.state = .waiting x) :
    s.taken (.answer x raw) = [raw] := by
  rw [taken, answer_of_waiting raw hw]

theorem Refuses.taken (h : s.Refuses c e) : s.taken c = [] := by
  cases c with
  | answer name raw =>
    have hcall := h.call
    rw [Session.call] at hcall
    rw [Session.taken]
    cases ha : s.answer name raw with
    | ok t =>
      rw [ha] at hcall
      cases hcall
    | error e' => rfl
  | _ => rfl

/-! ## Steps of a run -/

def stepped (s : Session) : Session :=
  { s.step.2 with state := s.step.1.state }

@[simp] theorem stepped_state (s : Session) : s.stepped.state = s.step.1.state := rfl
@[simp] theorem stepped_events (s : Session) : s.stepped.events = s.step.2.events := rfl
@[simp] theorem stepped_frames (s : Session) : s.stepped.frames = s.step.2.frames := rfl

theorem Live.stepped_eq (h : s.Live) (hne : ∀ e, s.step.1 ≠ .stopped e) : s.stepped = s.step.2 := by
  have hm := (step_moves h.complete).state h.state hne
  rw [stepped, ← hm]

theorem Live.stepped_of_stopped (h : s.Live) (hst : s.step = (.stopped e, t)) :
    s.stepped = { t with state := stateAfter e } := by
  have hstate : (Outcome.stopped e).state = stateAfter e := by
    rcases (h.moves hst).error with ⟨_, rfl⟩ | ⟨_, _, _, rfl⟩ <;> rfl
  rw [stepped, hst, hstate]

theorem Live.steps_succ (h : s.Live) (hr : s.step.1 ≠ .running) (fuel : Nat) :
    s.steps (fuel + 1) = (s.step.1, s.stepped) := by
  have heq := h.stepped_eq
  rw [steps]
  rcases hst : s.step with ⟨_ | _ | x | e, t⟩ <;> rw [hst] at hr heq
  · exact absurd rfl hr
  · rw [heq (by simp)]
  · rw [heq (by simp)]
  · rw [h.stepped_of_stopped hst]

theorem Live.turn_stepped (h : s.Live) (hr : s.step.1 = .running) (inputs : List String) :
    Turn s inputs .running s.stepped inputs := by
  have heq := h.stepped_eq (by simp [hr])
  exact .step (by rw [heq, ← hr])

/-- The steps of a run are turns without answers, and a last step if the run comes to an end. -/
theorem Live.steps_cases (h : s.Live) (fuel : Nat) :
    ∃ n t, Turns n s [] t [] ∧ (s.steps fuel = (.running, t) ∨
      t.step.1 ≠ .running ∧ s.steps fuel = (t.step.1, t.stepped)) := by
  induction fuel generalizing s with
  | zero => exact ⟨0, s, .refl s [], .inl rfl⟩
  | succ fuel ih =>
    by_cases hr : s.step.1 = .running
    · have ht := h.turn_stepped hr []
      obtain ⟨n, t, hn, hcases⟩ := ih (h.turn ht)
      have hsteps : s.steps (fuel + 1) = s.stepped.steps fuel := by
        cases ht with
        | step hst => exact steps_of_running hst fuel
      rw [hsteps]
      exact ⟨n + 1, t, .head ht hn, hcases⟩
    · exact ⟨0, s, .refl s [], .inr ⟨hr, h.steps_succ hr fuel⟩⟩

/-! ## What a session keeps -/

/-- A property that a session keeps in all that it does, with the answers that it has taken. -/
structure Lasting (I : List String → Session → Prop) : Prop where
  begin : ∀ {inputs : List String} {s : Session}, s.state = .ready → s.started = false →
    I inputs s → I inputs s.begin
  step : ∀ {inputs : List String} {s : Session}, s.Live → I inputs s → I inputs s.stepped
  answer : ∀ {inputs : List String} {s : Session} {x : String} (raw : String),
    s.state = .waiting x → I inputs s →
      I (inputs ++ [raw]) { s.assign x (.ofInput raw) with state := .ready }
  cancel : ∀ {inputs : List String} {s : Session}, I inputs s → I inputs s.cancel

namespace Lasting

variable {I : List String → Session → Prop}

theorem turns (hI : Lasting I) (given : List String) (h : s.Live)
    (ht : Turns n s inputs t rest) (hin : inputs = []) (hs : I given s) : I given t := by
  induction ht with
  | refl s inputs => exact hs
  | head hturn _ ih =>
    -- With no answers at hand the turn is a step.
    subst hin
    refine ih (h.turn hturn) ?_ ?_
    · cases hturn
      rfl
    · cases hturn with
      | step hst =>
        have hkept := hI.step h hs
        rwa [h.stepped_eq (by simp [hst]), hst] at hkept

theorem steps (hI : Lasting I) (given : List String) (h : s.Live) (hs : I given s) (fuel : Nat) :
    I given (s.steps fuel).2 := by
  obtain ⟨n, t, hn, hcases⟩ := h.steps_cases fuel
  have ht := hI.turns given h hn rfl hs
  rcases hcases with hst | ⟨-, hst⟩
  · rwa [hst]
  · rw [hst]
    exact hI.step (h.turns hn) ht

theorem run (hI : Lasting I) (given : List String) (hc : s.Complete) (hs : I given s) (fuel : Nat) :
    I given (s.run fuel).2 := by
  cases hstate : s.state with
  | ready =>
    have hbegin : I given s.begin := by
      cases hst : s.started with
      | true =>
        rw [begin_of_started hst]
        exact hs
      | false => exact hI.begin hstate hst hs
    rw [run_of_ready hstate]
    exact hI.steps given (live_begin_of_ready hstate hc) hbegin fuel
  | _ =>
    rw [Session.run, hstate]
    exact hs

theorem call (hI : Lasting I) (given : List String) (hc : s.Complete) (hs : I given s) (c : Call) :
    I (given ++ s.taken c) (s.call c).2 := by
  rcases s.accepts_or_refuses c with ha | ⟨e, hr⟩
  · cases ha with
    | run fuel _ =>
      rw [taken, List.append_nil]
      exact hI.run given hc hs fuel
    | answer raw hw =>
      rw [taken_of_waiting raw hw, Session.call, answer_of_waiting raw hw]
      exact hI.answer raw hw hs
    | cancel =>
      rw [taken, List.append_nil]
      exact hI.cancel hs
  · rw [hr.taken, hr.call, List.append_nil]
    exact hs

theorem after (hI : Lasting I) (given : List String) (hc : s.Complete) (hs : I given s)
    (calls : List Call) :
    I (given ++ s.accepted calls) (s.after calls) := by
  induction calls generalizing s given with
  | nil =>
    rw [accepted, List.append_nil]
    exact hs
  | cons c calls ih =>
    rw [accepted, ← List.append_assoc]
    exact ih _ (invariant_complete.call hc c) (hI.call given hc hs c)

end Lasting

/-! ## Sessions that are over -/

theorem refuses_of_isOver (h : s.state.isOver) (hc : c ≠ .cancel) : ∃ e, s.Refuses c e := by
  rcases s.accepts_or_refuses c with ha | hr
  · cases ha with
    | run fuel hw => simp [hw, State.isOver] at h
    | answer raw hw => simp [hw, State.isOver] at h
    | cancel => exact absurd rfl hc
  · exact hr

theorem after_of_isOver (h : s.state.isOver) (calls : List Call) :
    ∃ b, s.after calls = { s with cancelled := b } := by
  induction calls generalizing s with
  | nil => exact ⟨s.cancelled, rfl⟩
  | cons c calls ih =>
    by_cases hc : c = .cancel
    · subst hc
      obtain ⟨b, hb⟩ := ih (s := s.cancel) h
      exact ⟨b, hb⟩
    · obtain ⟨e, hr⟩ := refuses_of_isOver h hc
      rw [after, hr.call]
      exact ih h

theorem after_eq_of_isOver (h : s.state.isOver) {calls : List Call} (hc : .cancel ∉ calls) :
    s.after calls = s := by
  induction calls with
  | nil => rfl
  | cons c calls ih =>
    rw [List.mem_cons, not_or] at hc
    obtain ⟨e, hr⟩ := refuses_of_isOver h (Ne.symm hc.1)
    rw [after, hr.call]
    exact ih hc.2

theorem accepted_of_isOver (h : s.state.isOver) {calls : List Call} (hc : .cancel ∉ calls) :
    s.accepted calls = [] := by
  induction calls with
  | nil => rfl
  | cons c calls ih =>
    rw [List.mem_cons, not_or] at hc
    obtain ⟨e, hr⟩ := refuses_of_isOver h (Ne.symm hc.1)
    rw [accepted, hr.taken, hr.call]
    exact ih hc.2

end Session
end Pseudocode
