import Pseudocode.Proofs.Session.Cancellation
import Pseudocode.Proofs.Session.Lifecycle

/-! # Dialogues

A session may be run, answered and asked for its variables in any order, by demands that fit its state
or do not. What it comes to in such a dialogue is what a run of the program comes to that has the same
answers at hand.
-/

namespace Pseudocode

/-- What a session can be asked for without cancelling it. -/
inductive Demand where
  /-- To run for at most `fuel` steps. -/
  | run (fuel : Nat)
  | answer (name raw : String)
  /-- To say what a variable stands for. -/
  | lookup (name : String)

inductive Reply where
  | outcome (o : Outcome)
  | value (v : Except EvalError Value)

def Demand.call? : Demand → Option Call
  | .run fuel => some (.run fuel)
  | .answer name raw => some (.answer name raw)
  | .lookup _ => none

theorem Demand.cancel_not_mem (ds : List Demand) : .cancel ∉ ds.filterMap Demand.call? := by
  intro h
  obtain ⟨d, -, hd⟩ := List.mem_filterMap.mp h
  cases d <;> cases hd

def Outcome.unanswered : Outcome → Outcome
  | .waiting x => .stopped (.inputExhausted x)
  | o => o

theorem Outcome.state_eq_ready {o : Outcome} : o.state = .ready ↔ o = .running := by
  cases o with
  | stopped e => cases e <;> simp [Outcome.state, Session.stateAfter]
  | _ => simp [Outcome.state]

theorem Outcome.state_eq_finished {o : Outcome} : o.state = .finished ↔ o = .finished := by
  cases o with
  | stopped e => cases e <;> simp [Outcome.state, Session.stateAfter]
  | _ => simp [Outcome.state]

theorem Outcome.eq_stopped_of_state {o : Outcome} (h : o.state = .failed) :
    ∃ e, o = .stopped e := by
  cases o with
  | stopped e => exact ⟨e, rfl⟩
  | _ => cases h

/-- The program gives the result with the answers, however many steps it may take beyond what it
needs. -/
def Program.Gives (p : Program) (inputs : List String) (result : Except RunError (List Event)) :
    Prop :=
  ∃ n, ∀ fuel ≥ n, p.run fuel inputs = some result

namespace Session

variable {s t : Session} {o : Outcome} {c : Call} {e : RunError} {inputs rest : List String}
  {x : String} {n : Nat} {p : Program} {ds : List Demand}

/-! ## Demands -/

def respond (s : Session) : Demand → Reply × Session
  | .run fuel => (s.call (.run fuel)).map .outcome id
  | .answer name raw => (s.call (.answer name raw)).map .outcome id
  | .lookup name => (.value (s.environment.lookup name), s)

/-- The replies to demands, made one after the other, and the session after them. -/
def converse (s : Session) : List Demand → List Reply × Session
  | [] => ([], s)
  | d :: ds =>
    ((s.respond d).1 :: ((s.respond d).2.converse ds).1, ((s.respond d).2.converse ds).2)

theorem respond_snd (s : Session) (d : Demand) :
    (s.respond d).2 = s.after d.call?.toList := by
  cases d <;> rfl

theorem converse_snd (s : Session) (ds : List Demand) :
    (s.converse ds).2 = s.after (ds.filterMap Demand.call?) := by
  induction ds generalizing s with
  | nil => rfl
  | cons d ds ih => cases d <;> exact ih _

/-- One of the demands is a run which the session is ready for and in which the error stops it. -/
def StoppedBy (s : Session) (ds : List Demand) (e : RunError) : Prop :=
  ∃ before fuel later, ds = before ++ .run fuel :: later ∧
    (s.converse before).2.state = .ready ∧ ((s.converse before).2.run fuel).1 = .stopped e

theorem StoppedBy.cons {d : Demand} (h : (s.respond d).2.StoppedBy ds e) :
    s.StoppedBy (d :: ds) e := by
  obtain ⟨before, fuel, later, rfl, hready, hrun⟩ := h
  exact ⟨d :: before, fuel, later, rfl, hready, hrun⟩

/-! ## Turns and answers -/

theorem Turn.append (h : Turn s inputs .running t rest) (more : List String) :
    Turn s (inputs ++ more) .running t (rest ++ more) := by
  cases h with
  | step hst => exact .step hst
  | answer hst ha => exact .answer hst ha

theorem Turns.append (h : Turns n s inputs t rest) (more : List String) :
    Turns n s (inputs ++ more) t (rest ++ more) := by
  induction h with
  | refl s inputs => exact .refl s _
  | head hturn _ ih => exact .head (hturn.append more) ih

/-- The last step of a run is the turn for which there are no answers. -/
theorem Live.turn_unanswered (h : s.Live) (hr : s.step.1 ≠ .running) :
    Turn s [] s.step.1.unanswered s.stepped [] := by
  have heq := h.stepped_eq
  rcases hst : s.step with ⟨_ | _ | x | e, t⟩ <;> rw [hst] at hr heq
  · exact absurd rfl hr
  · rw [heq nofun]
    exact .finish hst
  · rw [heq nofun]
    exact .exhaust hst
  · rw [h.stepped_of_stopped hst]
    exact .stop hst

/-! ## The course of a session -/

/-- How far a program has come by the answers `inputs`, and the outcome of a run that has just these. -/
inductive Course (p : Program) : List String → Outcome → Session → Prop where
  | idle : Course p [] .running (start p none)
  | ongoing {n : Nat} {inputs : List String} {s : Session} :
    Turns n (start p none).begin inputs s [] → Course p inputs .running s
  | ended {n : Nat} {inputs : List String} {s t : Session} {o : Outcome} :
    Turns n (start p none).begin inputs s [] → Turn s [] o t [] → o ≠ .running → Course p inputs o t

namespace Course

theorem state (h : Course p inputs o s) : s.state = o.state := by
  cases h with
  | idle => rfl
  | ongoing hn => exact ((live_begin p none).turns hn).state
  | ended hn ht _ => exact ((live_begin p none).turns hn).turn_state ht

theorem eq_running (h : Course p inputs o s) (hs : s.state = .ready) : o = .running :=
  Outcome.state_eq_ready.mp (h.state.symm.trans hs)

theorem turns_begin (h : Course p inputs .running s) :
    ∃ n, Turns n (start p none).begin inputs s.begin [] := by
  cases h with
  | idle => exact ⟨0, .refl _ []⟩
  | @ongoing n _ _ hn =>
    have hbegin := begin_of_started ((live_begin p none).turns hn).started
    exact ⟨n, by rwa [hbegin]⟩
  | ended _ _ ho => exact absurd rfl ho

theorem run (h : Course p inputs o s) (hs : s.state = .ready) (fuel : Nat) :
    Course p inputs (s.run fuel).1.unanswered (s.run fuel).2 := by
  obtain rfl := h.eq_running hs
  obtain ⟨n, hn⟩ := h.turns_begin
  have hlive := (live_begin p none).turns hn
  rw [run_of_ready hs]
  obtain ⟨m, t, hm, hst | ⟨hr, hst⟩⟩ := hlive.steps_cases fuel
  · rw [hst]
    exact .ongoing (hn.trans hm)
  · have hturn := (hlive.turns hm).turn_unanswered hr
    rw [hst]
    refine .ended (hn.trans hm) hturn ?_
    rcases hst : t.step.1 with _ | _ | x | e
    · exact absurd hst hr
    all_goals nofun

theorem of_waiting (h : Course p inputs o s) (hw : s.state = .waiting x) :
    o = .stopped (.inputExhausted x) ∧
      ∃ n t, Turns n (start p none).begin inputs t [] ∧ t.step = (.waiting x, s) := by
  have hstate := h.state
  rw [hw] at hstate
  cases h with
  | idle => cases hstate
  | ongoing _ => cases hstate
  | ended hn ht ho =>
    cases ht with
    | step _ => cases hstate
    | exhaust hst =>
      cases hstate
      exact ⟨rfl, _, _, hn, hst⟩
    | finish _ => cases hstate
    | stop hst =>
      rcases (((live_begin p none).turns hn).moves hst).error with ⟨_, rfl⟩ | ⟨_, _, _, rfl⟩ <;>
        cases hstate

theorem answer (h : Course p inputs o s) (hw : s.state = .waiting x) (raw : String) :
    Course p (inputs ++ [raw]) .running { s.assign x (.ofInput raw) with state := .ready } := by
  obtain ⟨-, n, t, hn, hst⟩ := h.of_waiting hw
  have ht : Turn t [raw] .running _ [] := .answer hst (answer_of_waiting raw hw)
  exact .ongoing ((hn.append [raw]).trans ht.turns)

theorem call (h : Course p inputs o s) (hc : c ≠ .cancel) :
    ∃ o', Course p (inputs ++ s.taken c) o' (s.call c).2 := by
  rcases s.accepts_or_refuses c with ha | ⟨e, hr⟩
  · cases ha with
    | run fuel hs =>
      rw [taken, List.append_nil]
      exact ⟨_, h.run hs fuel⟩
    | answer raw hw =>
      rw [taken_of_waiting raw hw, Session.call, answer_of_waiting raw hw]
      exact ⟨_, h.answer hw raw⟩
    | cancel => exact absurd rfl hc
  · rw [hr.taken, hr.call, List.append_nil]
    exact ⟨o, h⟩

theorem after (h : Course p inputs o s) {calls : List Call} (hc : .cancel ∉ calls) :
    ∃ o', Course p (inputs ++ s.accepted calls) o' (s.after calls) := by
  induction calls generalizing inputs o s with
  | nil =>
    rw [accepted, List.append_nil]
    exact ⟨o, h⟩
  | cons c calls ih =>
    rw [List.mem_cons, not_or] at hc
    obtain ⟨o', h'⟩ := h.call (Ne.symm hc.1)
    rw [accepted, ← List.append_assoc]
    exact ih h' hc.2

theorem converse (p : Program) (ds : List Demand) :
    ∃ o, Course p ((start p none).accepted (ds.filterMap Demand.call?)) o
      ((start p none).converse ds).2 := by
  rw [converse_snd]
  exact idle.after (Demand.cancel_not_mem ds)

theorem ne_cancelled (h : Course p inputs (.stopped e) s) (path : Path) : e ≠ .cancelled path := by
  rintro rfl
  cases h with
  | @ended _ _ t _ _ hn ht _ =>
    have ht' := (undisturbed_begin p).turns hn
    cases ht with
    | stop hst =>
      cases ht'.live.moves hst with
      | cancel _ _ hcancelled _ => simp [ht'.cancelled] at hcancelled
      | enter _ _ _ hp => cases hp

/-- What a session comes to that has no more to run, a run of the program gives. -/
theorem run_eq (h : Course p inputs o s) (ho : o ≠ .running) :
    ∃ n, ∀ fuel ≥ n, (start p none).runWith fuel inputs = (o, s) := by
  cases h with
  | idle => exact absurd rfl ho
  | ongoing _ => exact absurd rfl ho
  | @ended n _ _ _ _ hn ht _ =>
    refine ⟨n + 1, fun fuel hf => ?_⟩
    rw [runWith_begin]
    exact (live_begin p none).runWith_of_stop hn ht ho hf

theorem gives_of_finished (h : Course p inputs .finished s) :
    p.Gives inputs (.ok s.events.toList) := by
  obtain ⟨n, hn⟩ := h.run_eq nofun
  exact ⟨n, fun fuel hf => by rw [Program.run, hn fuel hf]⟩

theorem gives_of_stopped (h : Course p inputs (.stopped e) s) : p.Gives inputs (.error e) := by
  obtain ⟨n, hn⟩ := h.run_eq nofun
  exact ⟨n, fun fuel hf => by rw [Program.run, hn fuel hf]⟩

end Course

/-! ## Sessions that fail -/

theorem run_state (hc : s.Complete) (hs : s.state = .ready) (fuel : Nat) :
    (s.run fuel).2.state = (s.run fuel).1.state := by
  have hlive := live_begin_of_ready hs hc
  rw [run_of_ready hs]
  obtain ⟨n, t, hn, hst | ⟨-, hst⟩⟩ := hlive.steps_cases fuel
  · rw [hst]
    exact (hlive.turns hn).state
  · rw [hst]
    rfl

theorem exists_run_of_failed (hc : s.Complete) (hs : s.state ≠ .failed) {d : Demand}
    (h : (s.respond d).2.state = .failed) :
    ∃ fuel e, d = .run fuel ∧ s.state = .ready ∧ (s.run fuel).1 = .stopped e := by
  cases d with
  | lookup name => exact absurd h hs
  | answer name raw =>
    rcases s.accepts_or_refuses (.answer name raw) with ha | ⟨e, hr⟩
    · cases ha with
      | answer raw hw =>
        simp [respond, Session.call, answer_of_waiting raw hw] at h
    · simp only [respond, hr.call] at h
      exact absurd h hs
  | run fuel =>
    rcases s.accepts_or_refuses (.run fuel) with ha | ⟨e, hr⟩
    · cases ha with
      | run fuel hready =>
        have hstate : (s.run fuel).1.state = .failed := (run_state hc hready fuel).symm.trans h
        obtain ⟨e, he⟩ := Outcome.eq_stopped_of_state hstate
        exact ⟨fuel, e, rfl, hready, he⟩
    · simp only [respond, hr.call] at h
      exact absurd h hs

theorem exists_stoppedBy (hc : s.Complete) (hs : s.state ≠ .failed)
    (h : (s.converse ds).2.state = .failed) : ∃ e, s.StoppedBy ds e := by
  induction ds generalizing s with
  | nil => exact absurd h hs
  | cons d ds ih =>
    by_cases hd : (s.respond d).2.state = .failed
    · obtain ⟨fuel, e, rfl, hready, hrun⟩ := exists_run_of_failed hc hs hd
      exact ⟨e, [], fuel, ds, rfl, hready, hrun⟩
    · have hcomplete : (s.respond d).2.Complete := by
        rw [respond_snd]
        exact invariant_complete.after hc _
      obtain ⟨e, he⟩ := ih hcomplete hd h
      exact ⟨e, he.cons⟩

theorem Course.stopped (h : Course p inputs o s) (hc : s.Complete) (hs : s.state = .ready)
    {fuel : Nat} (hrun : (s.run fuel).1 = .stopped e) :
    Course p inputs (.stopped e) (s.run fuel).2 ∧ (s.run fuel).2.state = .failed := by
  have hstopped := h.run hs fuel
  rw [hrun] at hstopped
  refine ⟨hstopped, hstopped.state.trans ?_⟩
  rcases run_error hc hrun with ⟨path, rfl⟩ | ⟨_, _, _, rfl⟩ | ⟨_, rfl⟩ | ⟨_, rfl⟩
  · exact absurd rfl (hstopped.ne_cancelled path)
  all_goals rfl

theorem StoppedBy.gives (h : (start p none).StoppedBy ds e) :
    ((start p none).converse ds).2.state = .failed ∧
      p.Gives ((start p none).accepted (ds.filterMap Demand.call?)) (.error e) := by
  obtain ⟨before, fuel, later, rfl, hready, hrun⟩ := h
  obtain ⟨o, hcourse⟩ := Course.converse p before
  rw [converse_snd] at hready hrun hcourse
  obtain ⟨hstopped, hfailed⟩ := hcourse.stopped (complete_after p none _) hready hrun
  -- Once it has failed, the session takes no more answers and stays as it is.
  have hover := congrArg State.isOver hfailed
  have hlater := Demand.cancel_not_mem later
  have hcalls : (before ++ .run fuel :: later).filterMap Demand.call? =
      before.filterMap Demand.call? ++ .run fuel :: later.filterMap Demand.call? :=
    List.filterMap_append
  rw [converse_snd, hcalls, after_append, accepted_append]
  constructor
  · exact (congrArg Session.state (after_eq_of_isOver hover hlater)).trans hfailed
  · have htaken := accepted_of_isOver hover hlater
    rw [accepted, taken, List.nil_append, call, htaken, List.append_nil]
    exact hstopped.gives_of_stopped

/-! ## Dialogues and runs -/

/-- What a session says of the runs of its program, where `ds` are the demands that have been made and
`inputs` the answers that it has taken. -/
structure Agrees (s : Session) (p : Program) (ds : List Demand) (inputs : List String) : Prop where
  /-- A call that the session refuses changes nothing. -/
  refused : ∀ c e, s.Refuses c e → s.call c = (.stopped e, s)
  finished : s.state = .finished → p.Gives inputs (.ok s.events.toList)
  failed : s.state = .failed → ∃ e, (start p none).StoppedBy ds e
  stopped : ∀ e, (start p none).StoppedBy ds e → s.state = .failed ∧ p.Gives inputs (.error e)
  waiting : ∀ x, s.state = .waiting x → p.Gives inputs (.error (.inputExhausted x))

/-- However a session is driven that nothing cancels, it comes to what a run of its program gives with
the answers that the session has taken. -/
theorem agrees_converse (p : Program) (ds : List Demand) :
    ((start p none).converse ds).2.Agrees p ds
      ((start p none).accepted (ds.filterMap Demand.call?)) := by
  obtain ⟨o, h⟩ := Course.converse p ds
  constructor
  case refused => exact fun _ _ hr => hr.call
  case failed => exact exists_stoppedBy (complete_start p none) nofun
  case stopped => exact fun _ hstopped => hstopped.gives
  case finished =>
    intro hs
    obtain rfl := Outcome.state_eq_finished.mp (h.state.symm.trans hs)
    exact h.gives_of_finished
  case waiting =>
    intro x hw
    obtain ⟨rfl, -⟩ := h.of_waiting hw
    exact h.gives_of_stopped

end Session
end Pseudocode
