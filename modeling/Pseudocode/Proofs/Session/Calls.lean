import Pseudocode.Proofs.Program.Completeness
import Pseudocode.Proofs.Session.Transitions

/-! # Sessions under calls

A session may be run, answered and cancelled in any order, by calls that it accepts or refuses. Whatever
the calls are, the instruction that it enters next carries what its kind needs, and no call comes upon
one that does not.
-/

namespace Pseudocode

inductive Call where
  /-- To run for at most `fuel` steps. -/
  | run (fuel : Nat)
  | answer (name raw : String)
  | cancel
  deriving DecidableEq

namespace Session

variable {s t : Session} {i : Instruction} {path : Path} {o : Outcome} {e : RunError}

/-- The outcome of a call, and the session after it. A call that is refused leaves the session as it
is; after an answer that is accepted, and after a cancellation, there is more to run. -/
def call (s : Session) : Call → Outcome × Session
  | .run fuel => s.run fuel
  | .answer name raw =>
    match s.answer name raw with
    | .ok s => (.running, s)
    | .error e => (.stopped e, s)
  | .cancel => (.running, s.cancel)

def after (s : Session) : List Call → Session
  | [] => s
  | c :: calls => (s.call c).2.after calls

theorem after_append (s : Session) (calls calls' : List Call) :
    s.after (calls ++ calls') = (s.after calls).after calls' := by
  induction calls generalizing s with
  | nil => rfl
  | cons c calls ih => exact ih _

theorem answer_eq_ok_iff {name raw : String} : s.answer name raw = .ok t ↔
    s.state = .waiting name ∧ t = { s.assign name (.ofInput raw) with state := .ready } := by
  constructor
  · intro h
    unfold answer at h
    split at h
    case h_1 expected hw =>
      split at h
      case isTrue hname =>
        subst hname
        exact ⟨hw, (Except.ok.inj h).symm⟩
      case isFalse => cases h
    case h_2 => cases h
  · rintro ⟨hw, rfl⟩
    exact answer_of_waiting raw hw

/-! ## What all calls keep -/

structure Invariant (I : Session → Prop) : Prop where
  begin : ∀ {s : Session}, I s → I s.begin
  step : ∀ {s : Session}, I s → I s.step.2
  state : ∀ {s : Session} (state : State), I s → I { s with state := state }
  assign : ∀ {s : Session} (name : String) (v : Value), I s → I (s.assign name v)
  cancel : ∀ {s : Session}, I s → I s.cancel

namespace Invariant

variable {I : Session → Prop}

theorem steps (hI : Invariant I) (hs : I s) (fuel : Nat) : I (s.steps fuel).2 := by
  induction fuel generalizing s with
  | zero => exact hs
  | succ fuel ih =>
    have ht := hI.step hs
    rw [Session.steps]
    rcases hstep : s.step with ⟨_ | _ | x | e, t⟩ <;> rw [hstep] at ht
    · exact ih ht
    · exact ht
    · exact ht
    · exact hI.state _ ht

theorem run (hI : Invariant I) (hs : I s) (fuel : Nat) : I (s.run fuel).2 := by
  unfold Session.run
  split
  · exact hI.steps (hI.begin hs) fuel
  · exact hs
  · exact hs

theorem answer (hI : Invariant I) (hs : I s) {name raw : String} (h : s.answer name raw = .ok t) :
    I t := by
  obtain ⟨-, rfl⟩ := answer_eq_ok_iff.mp h
  exact hI.state _ (hI.assign name _ hs)

theorem call (hI : Invariant I) (hs : I s) (c : Call) : I (s.call c).2 := by
  cases c with
  | run fuel => exact hI.run hs fuel
  | cancel => exact hI.cancel hs
  | answer name raw =>
    rw [Session.call]
    split
    case h_1 t ht => exact hI.answer hs ht
    case h_2 => exact hs

theorem after (hI : Invariant I) (hs : I s) (calls : List Call) : I (s.after calls) := by
  induction calls generalizing s with
  | nil => exact hs
  | cons c calls ih => exact ih (hI.call hs c)

end Invariant

theorem begin_keeps {α : Type} {f : Session → α} (hf : ∀ s e, f (s.emit e) = f s)
    (hs : f { s with started := true } = f s) : f s.begin = f s := by
  unfold begin
  split
  · rfl
  · exact (emitAll_keeps hf _ _).trans hs

theorem begin_frames (s : Session) : s.begin.frames = s.frames :=
  begin_keeps (f := Session.frames) (fun _ _ => rfl) rfl

theorem complete_start (p : Program) (cancelAt : Option Nat) : (start p cancelAt).Complete := by
  rintro f hf
  obtain rfl := List.mem_singleton.mp hf
  exact ⟨p.complete, fun _ h => by cases h⟩

theorem invariant_complete : Invariant Complete where
  begin {s} hs := by rwa [Complete, begin_frames]
  step hs := (step_moves hs).complete hs
  state _ hs := hs
  assign _ _ hs := hs
  cancel hs := hs

theorem complete_after (p : Program) (cancelAt : Option Nat) (calls : List Call) :
    ((start p cancelAt).after calls).Complete :=
  invariant_complete.after (complete_start p cancelAt) calls

/-! ## Errors -/

theorem Performs.error (h : Performs s i path (.stopped e) t) :
    ∃ err, e = .failed path i.line err := by
  cases h
  exact ⟨_, rfl⟩

theorem Moves.error (h : Moves s (.stopped e) t) :
    (∃ path, e = .cancelled path) ∨ ∃ path line err, e = .failed path line err := by
  cases h with
  | cancel => exact .inl ⟨_, rfl⟩
  | enter _ _ _ hp =>
    obtain ⟨err, rfl⟩ := hp.error
    exact .inr ⟨_, _, err, rfl⟩

theorem steps_error (hs : s.Complete) {fuel : Nat} (h : (s.steps fuel).1 = .stopped e) :
    (∃ path, e = .cancelled path) ∨ ∃ path line err, e = .failed path line err := by
  induction fuel generalizing s with
  | zero => cases h
  | succ fuel ih =>
    have hm := step_moves hs
    rw [steps] at h
    rcases hstep : s.step with ⟨_ | _ | x | e', t⟩ <;> rw [hstep] at h hm
    · exact ih (hm.complete hs) h
    · cases h
    · cases h
    · cases h
      exact hm.error

theorem run_error (hs : s.Complete) {fuel : Nat} (h : (s.run fuel).1 = .stopped e) :
    (∃ path, e = .cancelled path) ∨ (∃ path line err, e = .failed path line err) ∨
      (∃ x, e = .awaitingInput x) ∨ ∃ state, e = .notRunnable state := by
  unfold run at h
  split at h
  · rcases steps_error (invariant_complete.begin hs) h with h | h
    · exact .inl h
    · exact .inr (.inl h)
  · cases h
    exact .inr (.inr (.inl ⟨_, rfl⟩))
  · cases h
    exact .inr (.inr (.inr ⟨_, rfl⟩))

theorem answer_error {name raw : String} (h : s.answer name raw = .error e) :
    (∃ expected, e = .unexpectedInput expected name) ∨ e = .notWaiting := by
  unfold answer at h
  split at h
  · split at h
    · cases h
    · cases h
      exact .inl ⟨_, rfl⟩
  · cases h
    exact .inr rfl

theorem ne_malformed_of_call (hs : s.Complete) {c : Call} (h : (s.call c).1 = .stopped e)
    (path : Path) (kind : InstructionKind) : e ≠ .malformed path kind := by
  rintro rfl
  cases c with
  | run fuel => rcases run_error hs h with ⟨_, h⟩ | ⟨_, _, _, h⟩ | ⟨_, h⟩ | ⟨_, h⟩ <;> cases h
  | cancel => cases h
  | answer name raw =>
    rw [call] at h
    split at h
    case h_1 => cases h
    case h_2 err herr =>
      cases h
      rcases answer_error herr with ⟨_, h⟩ | h <;> cases h

end Session

/-- The instruction carries the block and the expressions that its kind needs. -/
structure Instruction.Equipped (i : Instruction) : Prop where
  body : i.kind.hasBlock → i.body.isSome
  argumentExpr : i.kind ∈ [.branch, .loop, .display] → i.argumentExpr.isSome
  value : i.kind = .assign → i.value.isSome

theorem Instruction.equipped_iff {i : Instruction} : i.Equipped ↔ i.action?.isSome := by
  obtain ⟨kind, argument, argumentExpr, value, body, otherwise, line⟩ := i
  constructor
  · rintro ⟨hb, he, hv⟩
    cases kind <;> cases argumentExpr <;> cases value <;> cases body <;>
      simp_all [action?, InstructionKind.hasBlock]
  · intro h
    constructor <;> cases kind <;> cases argumentExpr <;> cases value <;> cases body <;>
      simp_all [action?, InstructionKind.hasBlock]

/-- However a program is called, the instruction that it enters next carries what its kind needs, and
no call comes upon an instruction that does not. -/
theorem Program.call_ne_malformed (p : Program) (cancelAt : Option Nat) (calls : List Call) :
    (∀ i path, ((Session.start p cancelAt).after calls).upcoming? = some (i, path) → i.Equipped) ∧
      ∀ c path kind,
        (((Session.start p cancelAt).after calls).call c).1 ≠ .stopped (.malformed path kind) := by
  have hs := Session.complete_after p cancelAt calls
  constructor
  · intro i path hi
    obtain ⟨f, hf, he⟩ := List.exists_of_findSome?_eq_some hi
    exact Instruction.equipped_iff.mpr ((hs f hf).of_upcoming? he).action
  · intro c path kind h
    exact Session.ne_malformed_of_call hs h path kind rfl

end Pseudocode
