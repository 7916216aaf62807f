import Pseudocode.Proofs.Session.Current
import Pseudocode.Proofs.Session.Replay

/-! # Why a run fails

A run fails in the instruction that it has just entered. The variables are those from before the entry, and
under them the expression of the instruction has no value, or as a condition one that is no truth value.
Whatever a session is asked for, the paths and lines in its errors are those of instructions of the program.
-/

namespace Pseudocode

namespace Instruction

def operand? (i : Instruction) : Option Expr :=
  match i.kind with
  | .assign => i.value
  | .branch | .loop | .display => i.argumentExpr
  | .input => none

/-- The instruction cannot be performed under the variables `env`, by the error. -/
inductive Fails (i : Instruction) (env : Environment) : EvalError → Prop where
  /-- Its expression has no value. -/
  | operand {e : Expr} {err : EvalError} :
    i.operand? = some e → e.eval env = .error err → Fails i env err
  /-- Its condition has a value, but no truth value. -/
  | condition {c : Expr} {v : Value} :
    i.kind.hasBlock → i.argumentExpr = some c → c.eval env = .ok v → v.type ≠ .boolean →
      Fails i env (.typeMismatch i.kind.keyword v.type none)

variable {i : Instruction} {env : Environment} {err : EvalError} {c e : Expr}

theorem fails_iff_eval (hblock : i.kind.hasBlock = false) (he : i.operand? = some e) :
    i.Fails env err ↔ e.eval env = .error err := by
  constructor
  · intro h
    cases h with
    | operand he' h =>
      obtain rfl := Option.some.inj (he.symm.trans he')
      exact h
    | condition hb _ _ _ =>
      rw [hblock] at hb
      cases hb
  · exact .operand he

theorem operand?_of_hasBlock (h : i.kind.hasBlock) : i.operand? = i.argumentExpr := by
  unfold operand?
  cases hk : i.kind with
  | branch | loop => rfl
  | _ => simp [hk, InstructionKind.hasBlock] at h

theorem fails_iff_truth (hblock : i.kind.hasBlock) (hc : i.argumentExpr = some c) :
    i.Fails env err ↔ c.truth env i.kind.keyword = .error err := by
  have hoperand : i.operand? = some c := (operand?_of_hasBlock hblock).trans hc
  constructor
  · intro h
    cases h with
    | operand he h =>
      obtain rfl := Option.some.inj (hoperand.symm.trans he)
      rw [Expr.truth, h]
    | @condition c' v _ hc' hv htype =>
      obtain rfl := Option.some.inj (hc.symm.trans hc')
      rw [Expr.truth, hv]
      cases v with
      | boolean b => exact absurd rfl htype
      | _ => rfl
  · intro h
    unfold Expr.truth at h
    split at h
    case h_1 err' herr =>
      cases h
      exact .operand hoperand herr
    case h_2 => cases h
    case h_3 v hne hv =>
      cases h
      refine .condition hblock hc hv ?_
      cases v with
      | boolean b => exact absurd rfl (hne b)
      | _ => rintro ⟨⟩

end Instruction

def RunError.path? : RunError → Option Path
  | .cancelled path | .failed path _ _ | .malformed path _ => some path
  | _ => none

def RunError.line? : RunError → Option Nat
  | .failed _ line _ => some line
  | _ => none

/-- A path in the error is that of an instruction of the program, and so is a line in it. -/
def Program.Locates (p : Program) (e : RunError) : Prop :=
  ∀ path ∈ e.path?, ∃ i, p.find? path = some i ∧ ∀ line ∈ e.line?, i.line = line

namespace Session

variable {s t u : Session} {i : Instruction} {path path' : Path} {line n fuel : Nat} {err : EvalError}
  {e : RunError} {p : Program}

/-! ## Steps that fail -/

/-- Performing an instruction that lacks nothing fails just if the instruction does. -/
theorem perform_failed_iff (s : Session) (h : i.action?.isSome) :
    (s.perform i path).1 = .stopped (.failed path' line err) ↔
      path' = path ∧ line = i.line ∧ i.Fails s.environment err := by
  obtain ⟨a, ha⟩ := Option.isSome_iff_exists.mp h
  cases a with
  | assign x e =>
    obtain ⟨hk, -, hv⟩ := Instruction.action?_eq_assign.mp ha
    rw [perform_assign s ha,
      Instruction.fails_iff_eval (by rw [hk]; rfl) (by rw [Instruction.operand?, hk]; exact hv)]
    cases e.eval s.environment <;> simp [eq_comm]
  | display e =>
    obtain ⟨hk, he⟩ := Instruction.action?_eq_display.mp ha
    rw [perform_display s ha,
      Instruction.fails_iff_eval (by rw [hk]; rfl) (by rw [Instruction.operand?, hk]; exact he)]
    cases e.eval s.environment <;> simp [eq_comm]
  | input x =>
    obtain ⟨hk, -⟩ := Instruction.action?_eq_input.mp ha
    rw [perform_input s ha]
    have hfails : ¬ i.Fails s.environment err := by
      rintro (⟨he, -⟩ | ⟨hblock, -⟩)
      · simp [Instruction.operand?, hk] at he
      · simp [InstructionKind.hasBlock, hk] at hblock
    simp [hfails]
  | branch c body otherwise =>
    obtain ⟨hk, hc, -⟩ := Instruction.action?_eq_branch.mp ha
    rw [perform_branch s ha, Instruction.fails_iff_truth (by rw [hk]; rfl) hc]
    rcases c.truth s.environment i.kind.keyword with err' | _ | _ <;> simp [eq_comm]
  | loop c body =>
    obtain ⟨hk, hc, -⟩ := Instruction.action?_eq_loop.mp ha
    rw [perform_loop s ha, Instruction.fails_iff_truth (by rw [hk]; rfl) hc]
    rcases c.truth s.environment i.kind.keyword with err' | _ | _ <;> simp [eq_comm]

/-- A step fails in the instruction that it enters, of which the session then shows the entry and nothing
else. -/
theorem exists_of_step_failed (hc : s.Complete) (h : s.step = (.stopped (.failed path line err), t)) :
    ∃ i fs, s.entering? = some (i, path) ∧ i.line = line ∧ i.Fails s.environment err ∧
      t = { s with frames := fs }.enter i path := by
  have hm := step_moves hc
  rw [h] at hm
  cases hm with
  | @enter f fs i _ _ _ hf hup hrunning hp =>
    have hcancelled : s.cancelled = false := by simpa using hrunning
    have hi : i.Complete := (hc f (by simp [hf])).of_upcoming? hup
    have hentering : s.entering? = some (i, path) := by
      cases hp
      simp only [entering?, hf, hcancelled, hup, Bool.false_eq_true, if_false]
    have hperform := congrArg Prod.fst (step_of_entry hf hup hcancelled)
    rw [h] at hperform
    obtain ⟨rfl, rfl, hfails⟩ := (perform_failed_iff _ hi.action).mp hperform.symm
    rw [enter_environment] at hfails
    cases hp
    exact ⟨i, f.advance ++ fs, hentering, rfl, hfails, rfl⟩

/-- A run that an error stops has come to a step which the error stops. -/
theorem exists_of_steps_stopped (h : s.steps fuel = (.stopped e, t)) :
    ∃ n u v, n < fuel ∧ s.steps n = (.running, u) ∧ u.step = (.stopped e, v) ∧
      t = { v with state := stateAfter e } := by
  induction fuel generalizing s with
  | zero => cases h
  | succ fuel ih =>
    rw [steps] at h
    rcases hstep : s.step with ⟨_ | _ | x | e', v⟩ <;> rw [hstep] at h
    · obtain ⟨n, u, w, hn, hu, hw, rfl⟩ := ih h
      refine ⟨n + 1, u, w, Nat.succ_lt_succ hn, ?_, hw, rfl⟩
      rw [steps, hstep]
      exact hu
    · cases h
    · cases h
    · cases h
      exact ⟨0, s, v, Nat.succ_pos fuel, rfl, hstep, rfl⟩

theorem exists_of_run_stopped (hs : s.state = .ready) (h : s.run fuel = (.stopped e, t)) :
    ∃ n u v, n < fuel ∧ s.run n = (.running, u) ∧ u.step = (.stopped e, v) ∧
      t = { v with state := stateAfter e } := by
  rw [run_of_ready hs] at h
  obtain ⟨n, u, v, hn, hu, hv, rfl⟩ := exists_of_steps_stopped h
  exact ⟨n, u, v, hn, (run_of_ready hs n).trans hu, hv, rfl⟩

theorem exists_of_run_failed (h : s.run fuel = (.stopped (.failed path line err), t)) :
    ∃ n u v, n < fuel ∧ s.run n = (.running, u) ∧ u.step = (.stopped (.failed path line err), v) ∧
      t = { v with state := .failed } := by
  rcases s.accepts_or_refuses (.run fuel) with ⟨_, hs⟩ | ⟨e, hr⟩
  · exact exists_of_run_stopped hs h
  · obtain ⟨⟩ := h.symm.trans hr.call
    cases hr

/-! ## Errors that name an instruction -/

theorem after_concat (s : Session) (calls : List Call) (c : Call) :
    s.after (calls ++ [c]) = ((s.after calls).call c).2 :=
  after_append s calls [c]

theorem Refuses.locates {c : Call} (h : s.Refuses c e) : p.Locates e := by
  cases h <;> exact nofun

theorem Moves.locates (h : Moves s (.stopped e) t) (hl : ∀ f ∈ s.frames, f.Located p) :
    p.Locates e := by
  cases h with
  | @cancel f fs gs i path hf he _ _ =>
    rintro _ ⟨⟩
    exact ⟨i, (hl f (by simp [hf])).of_upcoming? he, nofun⟩
  | @enter f fs i path _ _ hf he _ hp =>
    cases hp
    rintro _ ⟨⟩
    refine ⟨i, (hl f (by simp [hf])).of_upcoming? he, ?_⟩
    rintro _ ⟨⟩
    rfl

theorem locates_of_call (p : Program) (cancelAt : Option Nat) (calls : List Call) {c : Call}
    (h : (((start p cancelAt).after calls).call c).1 = .stopped e) : p.Locates e := by
  rcases Session.accepts_or_refuses ((start p cancelAt).after calls) c with ha | ⟨e', hr⟩
  · cases ha with
    | run fuel hs =>
      obtain ⟨n, u, v, -, hu, hv, -⟩ := exists_of_run_stopped hs (Prod.ext h rfl)
      have hafter : (start p cancelAt).after (calls ++ [.run n]) = u := by
        rw [after_concat, call, hu]
      have hentered := entered_after p cancelAt (calls ++ [.run n])
      have hcomplete := complete_after p cancelAt (calls ++ [.run n])
      rw [hafter] at hentered hcomplete
      have hmoves := step_moves hcomplete
      rw [hv] at hmoves
      exact hmoves.locates hentered.located
    | answer raw hw =>
      rw [call, answer_of_waiting raw hw] at h
      cases h
    | cancel => cases h
  · rw [hr.call] at h
    cases h
    exact hr.locates

theorem locates_of_runWith {cancelAt : Option Nat} {calls : List Call} {inputs : List String}
    (hs : (start p cancelAt).after calls = s) (h : (s.runWith fuel inputs).1 = .stopped e) :
    p.Locates e := by
  fun_induction s.runWith fuel inputs generalizing calls with
  | case1 s x t hrun =>
    -- no answer is left
    cases h
    exact nofun
  | case2 s x t hrun raw inputs e' ha =>
    have hafter : (start p cancelAt).after (calls ++ [.run fuel]) = t := by
      rw [after_concat, hs, call, hrun]
    refine locates_of_call p cancelAt (calls ++ [.run fuel]) (c := .answer x raw) ?_
    rw [hafter, call, ha]
    exact h
  | case3 s x t hrun raw inputs u ha ih =>
    have hafter : (start p cancelAt).after (calls ++ [.run fuel] ++ [.answer x raw]) = u := by
      rw [after_concat, after_concat, hs, call, hrun, call, ha]
    exact ih hafter h
  | case4 s inputs hrun =>
    exact locates_of_call p cancelAt calls (c := .run fuel) (hs ▸ h)

end Session

open Session in
/-- A run that fails, whatever has been called before, explains itself: had it been given fewer steps, it
would have got to a session from which the failing one differs by the entry of an instruction of the program.
That is the one at the path of the error and on its line, its entry is the last event, the variables are
those from before, and under them the instruction fails by the error. -/
theorem Program.run_failed (p : Program) (cancelAt : Option Nat) (calls : List Call) {fuel : Nat}
    {path : Path} {line : Nat} {err : EvalError} {t : Session}
    (h : ((start p cancelAt).after calls).run fuel = (.stopped (.failed path line err), t)) :
    ∃ (i : Instruction) (n : Nat) (u : Session),
      n < fuel ∧ ((start p cancelAt).after calls).run n = (.running, u) ∧
      p.find? path = some i ∧ i.line = line ∧
      t.events.toList = u.events.toList ++ p.announcement i path ∧
      t.events.toList.getLast? = some (.entered path) ∧
      t.environment = u.environment ∧
      t.environment = Environment.replay .empty t.events.toList.dropLast ∧
      i.Fails t.environment err ∧ t.state = .failed := by
  obtain ⟨n, u, v, hn, hu, hv, rfl⟩ := exists_of_run_failed h
  have hafter : (start p cancelAt).after (calls ++ [.run n]) = u := by
    rw [after_append]
    exact congrArg Prod.snd hu
  have hentered := entered_after p cancelAt (calls ++ [.run n])
  have hextends := (invariant_extends (start p cancelAt)).after
    ⟨complete_start p cancelAt, .refl _⟩ (calls ++ [.run n])
  rw [hafter] at hentered hextends
  obtain ⟨hcomplete, hextends⟩ := hextends
  obtain ⟨i, fs, hentering, hline, hfails, rfl⟩ := exists_of_step_failed hcomplete hv
  have hevents := enter_announces { u with frames := fs } i path
  have henvironment := enter_environment { u with frames := fs } i path
  have hreplay : ({ u with frames := fs }.enter i path).environment =
      .replay .empty ({ u with frames := fs }.enter i path).events.toList :=
    (Extends.enter { u with frames := fs } i path).environment_eq (hextends.environment_eq rfl)
  refine ⟨i, n, u, hn, hu, find?_of_entering hentered.located hentering, hline, ?_, ?_, henvironment,
    ?_, ?_, rfl⟩
  · rw [← hentered.program]
    exact hevents
  · rw [hevents, announcement, ← List.append_assoc, List.getLast?_concat]
  · -- the entry itself sets no variable
    rw [hevents, announcement, ← List.append_assoc] at hreplay ⊢
    rw [List.dropLast_concat]
    rwa [Environment.replay_append] at hreplay
  · rwa [henvironment]

open Session in
/-- A loop whose body makes a number of its condition: the error comes when the condition is checked again, and
with it the second entry of the loop. -/
theorem Program.run_failed_loop : ∃ (p : Program) (t : Session) (i : Instruction) (n : Nat) (u : Session),
    p.instructions = [.assign "x" (.literal (.boolean true)) 1,
      .loop (.var "x") [.assign "x" (.literal (.integer 5)) 3] 2] ∧
    ((start p none).after []).run 9 =
      (.stopped (.failed ⟨[2]⟩ 2 (.typeMismatch "MIENTRAS" .integer none)), t) ∧
    n < 9 ∧ ((start p none).after []).run n = (.running, u) ∧
    p.find? ⟨[2]⟩ = some i ∧ i.line = 2 ∧
    t.events.toList = u.events.toList ++ p.announcement i ⟨[2]⟩ ∧
    t.events.toList.getLast? = some (.entered ⟨[2]⟩) ∧
    t.environment = u.environment ∧
    t.environment = Environment.replay .empty t.events.toList.dropLast ∧
    i.Fails t.environment (.typeMismatch "MIENTRAS" .integer none) ∧ t.state = .failed := by
  let p : Program := ⟨[.assign "x" (.literal (.boolean true)) 1,
    .loop (.var "x") [.assign "x" (.literal (.integer 5)) 3] 2], [], [], by decide +kernel, rfl⟩
  have hfailed : (((start p none).after []).run 9).1 =
      .stopped (.failed ⟨[2]⟩ 2 (.typeMismatch "MIENTRAS" .integer none)) := by
    decide +kernel
  rcases hrun : ((start p none).after []).run 9 with ⟨o, t⟩
  rw [hrun] at hfailed
  obtain rfl : o = .stopped (.failed ⟨[2]⟩ 2 (.typeMismatch "MIENTRAS" .integer none)) := hfailed
  obtain ⟨i, n, u, h⟩ := run_failed p none [] hrun
  exact ⟨p, t, i, n, u, rfl, hrun, h⟩

end Pseudocode
