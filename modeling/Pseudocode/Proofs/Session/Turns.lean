import Pseudocode.Proofs.Session.Refinement
import Pseudocode.Proofs.Session.Replay

/-! # Turns

A run with answers goes on in turns: a turn is a step, and the answer to the input that the step asks
for. A session has one turn at most, and how many steps a run may take between two inputs only bounds
how many turns it has.
-/

namespace Pseudocode

def Outcome.state : Outcome → State
  | .running => .ready
  | .finished => .finished
  | .waiting x | .stopped (.inputExhausted x) => .waiting x
  | .stopped e => Session.stateAfter e

def Call.raw? : Call → Option String
  | .answer _ raw => some raw
  | .run _ | .cancel => none

namespace Session

variable {s t u : Session} {inputs rest rest' : List String} {o : Outcome} {i : Instruction}
  {path : Path} {n a b k : Nat}

/-! ## Turns -/

/-- A turn of a session with answers to its inputs: its outcome, the session after it, and the answers
that are left. -/
inductive Turn (s : Session) : List String → Outcome → Session → List String → Prop where
  | step {inputs : List String} {t : Session} :
    s.step = (.running, t) → Turn s inputs .running t inputs
  | answer {x raw : String} {rest : List String} {t u : Session} :
    s.step = (.waiting x, t) → t.answer x raw = .ok u → Turn s (raw :: rest) .running u rest
  | exhaust {x : String} {t : Session} :
    s.step = (.waiting x, t) → Turn s [] (.stopped (.inputExhausted x)) t []
  | finish {inputs : List String} {t : Session} :
    s.step = (.finished, t) → Turn s inputs .finished t inputs
  | stop {inputs : List String} {e : RunError} {t : Session} :
    s.step = (.stopped e, t) →
      Turn s inputs (.stopped e) { t with state := stateAfter e } inputs

inductive Turns : Nat → Session → List String → Session → List String → Prop where
  | refl (s : Session) (inputs : List String) : Turns 0 s inputs s inputs
  | head {n : Nat} {s t u : Session} {inputs rest rest' : List String} :
    Turn s inputs .running t rest → Turns n t rest u rest' → Turns (n + 1) s inputs u rest'

theorem Turn.unique {o' : Outcome} (h : Turn s inputs o t rest) (h' : Turn s inputs o' u rest') :
    o = o' ∧ t = u ∧ rest = rest' := by
  cases h <;> cases h' <;> simp_all

theorem Turns.trans {m : Nat} (h : Turns n s inputs t rest) (h' : Turns m t rest u rest') :
    Turns (n + m) s inputs u rest' := by
  induction h with
  | refl s inputs => rwa [Nat.zero_add]
  | @head n s t v inputs rest rest'' hturn _ ih =>
    rw [Nat.add_right_comm]
    exact .head hturn (ih h')

theorem Turn.turns (h : Turn s inputs .running t rest) : Turns 1 s inputs t rest :=
  .head h (.refl t rest)

/-! ## Sessions that can go on -/

/-- The session has begun, and it can go on. -/
structure Live (s : Session) : Prop where
  state : s.state = .ready
  started : s.started = true
  complete : s.Complete

theorem Live.run (h : s.Live) (fuel : Nat) : s.run fuel = s.steps fuel := by
  rw [run_of_ready h.state, begin_of_started h.started]

theorem Live.runWith (h : s.Live) (fuel : Nat) (inputs : List String) :
    s.runWith fuel inputs = resume fuel inputs (s.steps fuel) := by
  rw [runWith_eq_resume, h.run]

@[simp] theorem emitAll_state (s : Session) (es : List Event) : (s.emitAll es).state = s.state :=
  emitAll_keeps (f := Session.state) (fun _ _ => rfl) s es

@[simp] theorem emitAll_started (s : Session) (es : List Event) :
    (s.emitAll es).started = s.started :=
  emitAll_keeps (f := Session.started) (fun _ _ => rfl) s es

@[simp] theorem enter_state (s : Session) (i : Instruction) (path : Path) :
    (s.enter i path).state = s.state :=
  emitAll_state s _

theorem live_begin_of_ready (h : s.state = .ready) (hc : s.Complete) : s.begin.Live where
  state := (begin_keeps (f := Session.state) (fun _ _ => rfl) rfl).trans h
  started := by
    cases hst : s.started with
    | true => rw [begin_of_started hst, hst]
    | false => rw [begin_of_not_started hst, emitAll_started]
  complete := invariant_complete.begin hc

/-- A part of a session that no report changes, and no change of the stack, the state, the variables or
the style. -/
structure Untouched {α : Type} (f : Session → α) : Prop where
  emit : ∀ s e, f (s.emit e) = f s
  other : ∀ (s : Session) frames state environment current,
    f { s with
      frames := frames, state := state, environment := environment, current := current } = f s

namespace Untouched

variable {α : Type} {f : Session → α}

theorem enter (hf : Untouched f) (s : Session) (i : Instruction) (path : Path) :
    f (s.enter i path) = f s :=
  (hf.emit _ _).trans ((hf.other _ _ _ _ _).trans (emitAll_keeps hf.emit s _))

theorem performs (hf : Untouched f) (h : Performs s i path o t) : f t = f s := by
  cases h with
  | assign _ _ => exact (hf.emit _ _).trans (hf.other s _ _ _ _)
  | display _ _ => exact hf.emit s _
  | input _ => exact (hf.other _ _ _ _ _).trans (hf.emit s _)
  | descend _ => exact hf.other s _ _ _ _
  | skip _ => rfl
  | fail _ => rfl

theorem moves (hf : Untouched f) (h : Moves s o t) : f t = f s := by
  cases h with
  | enter _ _ _ hp =>
    exact (hf.performs hp).trans ((hf.enter _ _ _).trans (hf.other s _ _ _ _))
  | _ => exact hf.other s _ _ _ _

end Untouched

theorem untouched_started : Untouched Session.started :=
  ⟨fun _ _ => rfl, fun _ _ _ _ _ => rfl⟩

theorem Performs.state (h : Performs s i path o t) (hs : s.state = .ready)
    (ho : ∀ e, o ≠ .stopped e) : t.state = o.state := by
  cases h with
  | input _ => rfl
  | fail e => exact absurd rfl (ho _)
  | _ => exact hs

theorem Moves.state (h : Moves s o t) (hs : s.state = .ready) (ho : ∀ e, o ≠ .stopped e) :
    t.state = o.state := by
  cases h with
  | finish _ => rfl
  | leave _ _ => exact hs
  | cancel _ _ _ _ => exact absurd rfl (ho _)
  | enter _ _ _ hp => exact hp.state ((enter_state _ _ _).trans hs) ho

theorem Live.moves (h : s.Live) (hst : s.step = (o, t)) : Moves s o t := by
  have hm := step_moves h.complete
  rwa [hst] at hm

theorem Live.turn (h : s.Live) (ht : Turn s inputs .running t rest) : t.Live := by
  cases ht with
  | step hst =>
    have hm := h.moves hst
    exact ⟨hm.state h.state nofun, (untouched_started.moves hm).trans h.started, hm.complete h.complete⟩
  | answer hst ha =>
    have hm := h.moves hst
    obtain ⟨-, rfl⟩ := answer_eq_ok_iff.mp ha
    exact ⟨rfl, (untouched_started.moves hm).trans h.started, hm.complete h.complete⟩

theorem Live.turns (h : s.Live) (ht : Turns n s inputs t rest) : t.Live := by
  induction ht with
  | refl s inputs => exact h
  | head hturn _ ih => exact ih (h.turn hturn)

theorem Live.turn_state (h : s.Live) (ht : Turn s inputs o t rest) : t.state = o.state := by
  cases ht with
  | step hst => exact (h.moves hst).state h.state nofun
  | answer hst ha =>
    obtain ⟨-, rfl⟩ := answer_eq_ok_iff.mp ha
    rfl
  | exhaust hst => exact (h.moves hst).state h.state nofun
  | finish hst => exact (h.moves hst).state h.state nofun
  | stop hst =>
    rcases (h.moves hst).error with ⟨_, rfl⟩ | ⟨_, _, _, rfl⟩ <;> rfl

theorem Live.exists_turn (h : s.Live) (inputs : List String) :
    ∃ o t rest, Turn s inputs o t rest := by
  rcases hst : s.step with ⟨_ | _ | x | e, t⟩
  · exact ⟨_, _, _, .step hst⟩
  · exact ⟨_, _, _, .finish hst⟩
  · have hw : t.state = .waiting x := (h.moves hst).state h.state nofun
    cases inputs with
    | nil => exact ⟨_, _, _, .exhaust hst⟩
    | cons raw rest => exact ⟨_, _, _, .answer hst (answer_of_waiting raw hw)⟩
  · exact ⟨_, _, _, .stop hst⟩

/-! ## Runs in turns -/

theorem Turn.resume_eq (h : Turn s inputs o t rest) (ho : o ≠ .running) (a b : Nat) :
    resume b inputs (s.steps (a + 1)) = (o, t) := by
  rw [steps]
  cases h with
  | step _ => exact absurd rfl ho
  | answer _ _ => exact absurd rfl ho
  | exhaust hst => rw [hst]; rfl
  | finish hst => rw [hst]; rfl
  | stop hst => rw [hst]; rfl

/-- A run goes on after a turn: with one step less until the next input, or with one answer less. -/
theorem Live.resume_turn (h : s.Live) (ht : Turn s inputs .running t rest) (a b : Nat) :
    ∃ c, (rest = inputs ∧ c = a ∨ rest.length < inputs.length ∧ c = b) ∧
      resume b inputs (s.steps (a + 1)) = resume b rest (t.steps c) := by
  have hlive := h.turn ht
  cases ht with
  | step hst => exact ⟨a, .inl ⟨rfl, rfl⟩, by rw [steps_of_running hst]⟩
  | answer hst ha =>
    refine ⟨b, .inr ⟨Nat.lt_succ_self _, rfl⟩, ?_⟩
    rw [steps, hst, ← hlive.runWith]
    simp only [resume, ha]

theorem Live.resume_turns (h : s.Live) (ht : Turns n s inputs t rest) (ha : n ≤ a) (hb : n ≤ b) :
    ∃ c, min a b ≤ c + n ∧ resume b inputs (s.steps a) = resume b rest (t.steps c) := by
  induction ht generalizing a with
  | refl s inputs => exact ⟨a, Nat.min_le_left a b, rfl⟩
  | @head n s t u inputs rest rest' hturn _ ih =>
    obtain ⟨a, rfl⟩ : ∃ a', a = a' + 1 := ⟨a - 1, by omega⟩
    obtain ⟨c, hc, heq⟩ := h.resume_turn hturn a b
    obtain ⟨c', hc', heq'⟩ := ih (h.turn hturn) (a := c) (by omega) (by omega)
    exact ⟨c', by omega, heq.trans heq'⟩

/-- A run that the turn after its first `n` turns brings to an end. -/
theorem Live.runWith_of_stop (h : s.Live) (hn : Turns n s inputs t rest) (ht : Turn t rest o u rest')
    (ho : o ≠ .running) {fuel : Nat} (hf : n < fuel) : s.runWith fuel inputs = (o, u) := by
  obtain ⟨c, hc, heq⟩ := h.resume_turns hn (Nat.le_of_lt hf) (Nat.le_of_lt hf)
  obtain ⟨c, rfl⟩ : ∃ c', c = c' + 1 := ⟨c - 1, by omega⟩
  rw [h.runWith, heq, ht.resume_eq ho]

theorem Invariant.resume {I : Session → Prop} (hI : Invariant I) (fuel : Nat) (inputs : List String)
    {oc : Outcome × Session} (h : I oc.2) : I (Session.resume fuel inputs oc).2 := by
  induction inputs generalizing oc with
  | nil => rcases oc with ⟨_ | _ | x | e, s⟩ <;> exact h
  | cons raw rest ih =>
    rcases oc with ⟨_ | _ | x | e, s⟩
    · exact h
    · exact h
    · rw [Session.resume]
      cases ha : s.answer x raw with
      | error e => exact h
      | ok u =>
        simp only
        rw [runWith_eq_resume]
        exact ih (hI.run (hI.answer h ha) fuel)
    · exact h

theorem Live.extends_runWith (h : s.Live) (hn : Turns n s inputs t rest)
    (ht : Turn t rest o u rest') {fuel : Nat} (hf : n < fuel) :
    u.Extends (s.runWith fuel inputs).2 := by
  by_cases ho : o = .running
  · subst ho
    obtain ⟨c, hc, heq⟩ := h.resume_turns hn (Nat.le_of_lt hf) (Nat.le_of_lt hf)
    obtain ⟨c, rfl⟩ : ∃ c', c = c' + 1 := ⟨c - 1, by omega⟩
    have hlive := h.turns hn
    obtain ⟨c', -, heq'⟩ := hlive.resume_turn ht c fuel
    have hI := invariant_extends u
    have hu : u.Complete ∧ u.Extends u := ⟨(hlive.turn ht).complete, .refl u⟩
    rw [h.runWith, heq, heq']
    exact (hI.resume fuel rest' (hI.steps hu c')).2
  · rw [h.runWith_of_stop hn ht ho hf]
    exact .refl u

theorem Live.exists_turn_reaching {s : Session} {inputs : List String} {a : Nat} (h : s.Live)
    (hlt : s.events.size < k) (hk : k ≤ (resume b inputs (s.steps a)).2.events.size) :
    ∃ n t rest o u rest', Turns n s inputs t rest ∧ t.events.size < k ∧
      Turn t rest o u rest' ∧ k ≤ u.events.size := by
  obtain ⟨o, t, rest, ht⟩ := h.exists_turn inputs
  by_cases hkt : k ≤ t.events.size
  · exact ⟨0, s, inputs, o, t, rest, .refl s inputs, hlt, ht, hkt⟩
  · cases ha : a with
    | zero =>
      rw [ha] at hk
      exact absurd hk (Nat.not_le.mpr hlt)
    | succ a' =>
      rw [ha] at hk
      by_cases ho : o = .running
      · subst ho
        obtain ⟨c, hc, heq⟩ := h.resume_turn ht a' b
        rw [heq] at hk
        obtain ⟨n, t', rest', o, u, rest'', hn, hreach⟩ :=
          Live.exists_turn_reaching (h.turn ht) (Nat.not_le.mp hkt) hk
        exact ⟨n + 1, t', rest', o, u, rest'', .head ht hn, hreach⟩
      · rw [ht.resume_eq ho] at hk
        exact absurd hk hkt
termination_by (inputs.length, a)
decreasing_by
  rcases hc with ⟨rfl, rfl⟩ | ⟨hlen, rfl⟩
  · exact .right _ (ha ▸ Nat.lt_succ_self _)
  · exact .left _ _ hlen

/-! ## Turns to an end -/

/-- After `n` turns with more to run after each, one more brings the session to its end. -/
def ReachesEnd (n : Nat) (s : Session) (inputs : List String) (o : Outcome) (u : Session) : Prop :=
  ∃ t rest rest', Turns n s inputs t rest ∧ Turn t rest o u rest' ∧ o ≠ .running

theorem ReachesEnd.head (ht : Turn s inputs .running t rest) (h : ReachesEnd n t rest o u) :
    ReachesEnd (n + 1) s inputs o u := by
  obtain ⟨v, rest', rest'', hn, hu, ho⟩ := h
  exact ⟨v, rest', rest'', .head ht hn, hu, ho⟩

theorem Turns.take {m : Nat} (h : Turns n s inputs u rest') (hm : m ≤ n) :
    ∃ t rest, Turns m s inputs t rest := by
  induction h generalizing m with
  | refl s inputs =>
    obtain rfl := Nat.le_zero.mp hm
    exact ⟨s, inputs, .refl s inputs⟩
  | @head n s t u inputs rest rest' hturn _ ih =>
    cases m with
    | zero => exact ⟨s, inputs, .refl s inputs⟩
    | succ m =>
      obtain ⟨v, rest'', hm⟩ := ih (Nat.le_of_succ_le_succ hm)
      exact ⟨v, rest'', .head hturn hm⟩

/-- A turn can be had by calls that give the answers which it takes, and do not cancel. -/
theorem Live.calls_turn (h : s.Live) (ht : Turn s inputs o t rest) :
    ∃ calls, .cancel ∉ calls ∧ calls.filterMap Call.raw? ++ rest = inputs ∧ s.after calls = t := by
  cases ht with
  | @answer x raw _ _ _ hst ha =>
    refine ⟨[.run 1, .answer x raw], by simp, rfl, ?_⟩
    simp only [after, call, h.run, steps, hst, ha]
  | _ hst =>
    refine ⟨[.run 1], by simp, rfl, ?_⟩
    simp only [after, call, h.run, steps, hst]

theorem Live.calls_turns (h : s.Live) (ht : Turns n s inputs t rest) :
    ∃ calls, .cancel ∉ calls ∧ calls.filterMap Call.raw? ++ rest = inputs ∧ s.after calls = t := by
  induction ht with
  | refl s inputs => exact ⟨[], List.not_mem_nil, rfl, rfl⟩
  | head hturn _ ih =>
    obtain ⟨calls, hcancel, hraw, hafter⟩ := h.calls_turn hturn
    obtain ⟨calls', hcancel', hraw', hafter'⟩ := ih (h.turn hturn)
    refine ⟨calls ++ calls', by simp [hcancel, hcancel'], ?_, ?_⟩
    · rw [List.filterMap_append, List.append_assoc, hraw', hraw]
    · rw [after_append, hafter, hafter']

/-! ## Sequences that are done -/

/-- The session once it has left the sequences that nothing more is entered from. -/
def skip (s : Session) : Session :=
  { s with frames := s.frames.dropWhile (·.upcoming?.isNone) }

theorem skip_of_nil (hf : s.frames = []) : s.skip = s := by
  rw [skip, hf, List.dropWhile_nil, ← hf]

theorem skip_of_leave {f : Frame} {fs : List Frame} (hf : s.frames = f :: fs)
    (he : f.upcoming? = none) : s.skip = { s with frames := fs }.skip := by
  rw [skip, hf, List.dropWhile_cons_of_pos (by simp [he])]
  rfl

theorem skip_of_upcoming {f : Frame} {fs : List Frame} {q : Instruction × Path}
    (hf : s.frames = f :: fs) (he : f.upcoming? = some q) : s.skip = s := by
  rw [skip, hf, List.dropWhile_cons_of_neg (by simp [he]), ← hf]

/-- A session leaves the sequences that are done in turns that nobody notices, be it cancelled or
not. -/
theorem turns_skip (s : Session) (inputs : List String) :
    ∃ n, Turns n s inputs s.skip inputs := by
  induction hf : s.frames generalizing s with
  | nil =>
    rw [skip_of_nil hf]
    exact ⟨0, .refl s inputs⟩
  | cons f fs ih =>
    cases he : f.upcoming? with
    | none =>
      obtain ⟨n, hn⟩ := ih { s with frames := fs } rfl
      rw [← skip_of_leave hf he] at hn
      exact ⟨n + 1, .head (.step (step_of_leave hf he)) hn⟩
    | some q =>
      rw [skip_of_upcoming hf he]
      exact ⟨0, .refl s inputs⟩

theorem skip_cases (s : Session) : s.skip.frames = [] ∨
    ∃ f fs i path, s.skip.frames = f :: fs ∧ f.upcoming? = some (i, path) := by
  cases hf : s.skip.frames with
  | nil => exact .inl rfl
  | cons f fs =>
    have hhead := List.head?_dropWhile_not (·.upcoming?.isNone) s.frames
    rw [show s.frames.dropWhile _ = f :: fs from hf] at hhead
    cases he : f.upcoming? with
    | none => simp [he] at hhead
    | some q => exact .inr ⟨f, fs, q.1, q.2, rfl, he⟩

end Session
end Pseudocode
