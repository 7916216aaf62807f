import Pseudocode.Proofs.Program.Completeness
import Pseudocode.Proofs.Session.Simulation

/-! # Programs give what their trees mean

A program with answers to its inputs gives exactly what the meaning of its tree gives, events or an
error, and runs on forever exactly if its tree means nothing.
-/

namespace Pseudocode

namespace Session

variable {s t : Session} {σ : Progress} {p : Program}

/-! ## Runs with fuel -/

def given? : Outcome × Session → Option (Except RunError (List Event))
  | (.finished, s) => some (.ok s.events.toList)
  | (.stopped e, _) => some (.error e)
  | _ => none

section

variable {inputs : List String} {fuel : Nat} {o : Outcome}
  {result : Except RunError (List Event)}

theorem Shows.run (h : s.Shows p σ) (fuel : Nat) : s.run fuel = s.steps fuel := by
  rw [run_of_ready h.state, begin_of_started h.started]

theorem steps_of_running (h : s.step = (.running, t)) (fuel : Nat) :
    s.steps (fuel + 1) = t.steps fuel := by
  rw [steps, h]

theorem steps_succ {t : Session} (h : s.steps fuel = (o, t)) (ho : o ≠ .running) :
    s.steps (fuel + 1) = (o, t) := by
  induction fuel generalizing s with
  | zero =>
    injection h with ho' _
    exact absurd ho'.symm ho
  | succ fuel ih =>
    rw [steps] at h ⊢
    rcases hs : s.step with ⟨_ | _ | x | e, s'⟩
    · rw [hs] at h
      exact ih h
    all_goals rw [hs] at h; exact h

theorem runWith_congr (h : s.run fuel = t.run fuel) :
    s.runWith fuel inputs = t.runWith fuel inputs := by
  unfold runWith
  rw [h]

theorem run_ne_running (h : given? (s.runWith fuel inputs) = some result) :
    (s.run fuel).1 ≠ .running := by
  intro hr
  unfold runWith at h
  rcases hs : s.run fuel with ⟨o, t⟩
  rw [hs] at hr h
  obtain rfl : o = .running := hr
  simp [given?] at h

/-- One more step at the front needs one more unit of fuel at most. -/
theorem Shows.runWith_of_running (hs : s.Shows p σ) {σ' : Progress} (ht : t.Shows p σ')
    (hst : s.step = (.running, t)) (h : given? (t.runWith fuel inputs) = some result) :
    s.runWith (fuel + 1) inputs = t.runWith (fuel + 1) inputs := by
  apply runWith_congr
  have hne := run_ne_running h
  rw [ht.run] at hne
  rw [hs.run, ht.run, steps_of_running hst, steps_succ rfl hne]

def resume (fuel : Nat) (inputs : List String) : Outcome × Session → Outcome × Session
  | (.waiting x, s) =>
    match inputs with
    | [] => (.stopped (.inputExhausted x), s)
    | raw :: rest =>
      match s.answer x raw with
      | .error e => (.stopped e, s)
      | .ok s => s.runWith fuel rest
  | oc => oc

theorem runWith_eq_resume : s.runWith fuel inputs = resume fuel inputs (s.run fuel) := by
  unfold runWith resume
  rcases s.run fuel with ⟨_ | _ | x | e, t⟩ <;> rfl

theorem resume_steps (hne : s.step.1 ≠ .running) (n : Nat) :
    given? (resume fuel inputs (s.steps (n + 1))) = given? (resume fuel inputs s.step) := by
  rw [steps]
  rcases hs : s.step with ⟨_ | _ | x | e, t⟩
  · rw [hs] at hne
    exact absurd rfl hne
  all_goals rfl

/-- All large amounts of fuel are enough to conclude from a result of a step. -/
def Fueled (inputs : List String) (result : Except RunError (List Event)) :
    Outcome × Session → Prop
  | (.running, s) => ∃ n, ∀ fuel ≥ n, given? (s.runWith fuel inputs) = some result
  | oc => ∃ n, ∀ fuel ≥ n, given? (resume fuel inputs oc) = some result

theorem Concludes.fueled {oc : Outcome × Session} (h : Concludes inputs oc result)
    {R : Progress → Progress → Option RunError → Prop} (hi : σ.inputs = inputs)
    (hk : Keeps p R σ oc) : Fueled inputs result oc := by
  induction h generalizing R σ with
  | @running inputs s result _ ih =>
    obtain ⟨σ', hs, hi', hc, -⟩ := hk
    have hk' := step_keeps hs hc
    have hf := ih (hi'.trans hi) hk'
    rcases hst : s.step with ⟨o, t⟩
    rw [hst] at hf hk'
    by_cases ho : o = .running
    · subst ho
      obtain ⟨σ'', ht, -⟩ := hk'
      obtain ⟨n, hn⟩ := hf
      refine ⟨n + 1, fun fuel hfuel => ?_⟩
      obtain ⟨k, rfl⟩ : ∃ k, fuel = k + 1 := ⟨fuel - 1, by omega⟩
      rw [hs.runWith_of_running ht hst (hn k (by omega))]
      exact hn _ (by omega)
    · obtain ⟨n, hn⟩ : ∃ n, ∀ fuel ≥ n, given? (resume fuel inputs (o, t)) = some result := by
        cases o <;> first | exact hf | exact absurd rfl ho
      refine ⟨n + 1, fun fuel hfuel => ?_⟩
      obtain ⟨k, rfl⟩ : ∃ k, fuel = k + 1 := ⟨fuel - 1, by omega⟩
      rw [runWith_eq_resume, hs.run, resume_steps (by rwa [hst]), hst]
      exact hn _ (by omega)
  | @answered rest x raw s s' result ha _ ih =>
    obtain ⟨σ', hw, hs, hc, -⟩ := hk
    have ha' := ha
    rw [answer_of_waiting raw hw, Except.ok.injEq] at ha'
    subst ha'
    obtain ⟨n, hn⟩ := ih (R := Left p s.frames) rfl
      ⟨_, (hs.setInputs rest).assign x (.ofInput raw), rfl, hc, fun τ r h => h⟩
    exact ⟨n, fun fuel hfuel => by rw [resume, ha]; exact hn fuel hfuel⟩
  | exhausted => exact ⟨0, fun _ _ => rfl⟩
  | finished => exact ⟨0, fun _ _ => rfl⟩
  | stopped => exact ⟨0, fun _ _ => rfl⟩

theorem Concludes.of_steps {oc : Outcome × Session} (h : s.steps fuel = oc) (ho : oc.1 ≠ .running)
    (hc : Concludes inputs oc result) : Concludes inputs (.running, s) result := by
  subst h
  induction fuel generalizing s with
  | zero => exact absurd rfl ho
  | succ fuel ih =>
    refine .running ?_
    rw [steps] at ho hc
    rcases hs : s.step with ⟨_ | _ | x | e, t⟩
    · rw [hs] at ho hc
      exact ih ho hc
    · rw [hs] at hc
      exact hc
    · rw [hs] at hc
      exact hc
    · rw [hs] at hc
      cases hc
      exact .stopped

theorem steps_keeps (hs : s.Shows p σ) (hc : ∀ f ∈ s.frames, f.Complete) (fuel : Nat) :
    Keeps p (Left p s.frames) σ (s.steps fuel) := by
  induction fuel generalizing s σ with
  | zero => exact ⟨σ, hs, rfl, hc, fun _ _ h => h⟩
  | succ fuel ih =>
    have hk := step_keeps hs hc
    rw [steps]
    rcases hst : s.step with ⟨_ | _ | x | e, t⟩
    · rw [hst] at hk
      obtain ⟨σ', ht, hi, hc', hl⟩ := hk
      exact (ih ht hc').mono hi hl
    all_goals rw [hst] at hk; exact hk

theorem Concludes.of_runWith (hs : s.Shows p σ) (hc : ∀ f ∈ s.frames, f.Complete)
    (h : given? (s.runWith fuel inputs) = some result) : Concludes inputs (.running, s) result := by
  induction inputs generalizing s σ with
  | nil =>
    have hne := run_ne_running h
    rw [hs.run] at hne
    refine .of_steps rfl hne ?_
    rw [runWith_eq_resume, hs.run] at h
    rcases hst : s.steps fuel with ⟨_ | _ | x | e, t⟩ <;> rw [hst] at h hne <;> cases h
    · exact .finished
    · exact .exhausted
    · exact .stopped
  | cons raw rest ih =>
    have hne := run_ne_running h
    rw [hs.run] at hne
    refine .of_steps rfl hne ?_
    rw [runWith_eq_resume, hs.run] at h
    have hk := steps_keeps hs hc fuel
    rcases hst : s.steps fuel with ⟨_ | _ | x | e, t⟩ <;> rw [hst] at h hne hk
    · cases h
    · cases h
      exact .finished
    · obtain ⟨σ', hw, ht, hc', -⟩ := hk
      have ha := answer_of_waiting raw hw
      rw [resume, ha] at h
      exact .answered ha (ih (ht.assign x (.ofInput raw)) hc' h)
    · cases h
      exact .stopped

end

end Session

namespace Program

variable {p : Program} {inputs : List String} {result : Except RunError (List Event)}

theorem shows_begin (p : Program) (inputs : List String) :
    (Session.start p none).begin.Shows p (p.outset inputs) := by
  have hs : { Session.start p none with started := true }.Shows p ⟨.empty, [], inputs⟩ :=
    ⟨rfl, rfl, rfl, rfl, rfl, rfl, rfl⟩
  exact hs.emitAll (p.globals.map .styled)

theorem frames_begin (p : Program) :
    (Session.start p none).begin.frames = [⟨p.instructions, 0, .root, 0, none⟩] :=
  Session.emitAll_frames _ _

theorem complete_begin (p : Program) : ∀ f ∈ (Session.start p none).begin.frames, f.Complete := by
  rw [frames_begin]
  simp only [List.forall_mem_singleton]
  exact ⟨p.complete, fun _ h => by simp at h⟩

theorem run_eq_given (p : Program) (fuel : Nat) (inputs : List String) :
    p.run fuel inputs = Session.given? ((Session.start p none).begin.runWith fuel inputs) := by
  have h : (Session.start p none).run fuel = (Session.start p none).begin.run fuel :=
    ((shows_begin p inputs).run fuel).symm
  rw [← Session.runWith_congr h]
  rfl

theorem runs_of_left {σ τ : Progress} {r : Option RunError}
    (h : Left p [⟨p.instructions, 0, .root, 0, none⟩] σ τ r) :
    Runs p (.sequence p.instructions .root 1) σ τ r := by
  rcases h with ⟨ρ, h, ⟨_, ⟨rfl, -⟩, rfl, rfl⟩ | ⟨e, -, -, he⟩⟩ | ⟨e, rfl, h⟩
  · exact h
  · cases he
  · exact h

theorem yields_of_run {fuel : Nat} (h : p.run fuel inputs = some result) :
    p.Yields inputs result := by
  have hs := p.shows_begin inputs
  have hc := p.complete_begin
  rw [run_eq_given] at h
  have hi : (p.outset inputs).inputs = inputs := rfl
  obtain ⟨σ, r, hl, hr⟩ := (Session.Concludes.of_runWith hs hc h).exists_result
    (R := Left p (Session.start p none).begin.frames) hi ⟨_, hs, rfl, hc, fun _ _ h => h⟩
  rw [frames_begin] at hl
  exact ⟨σ, r, runs_of_left hl, hr⟩

theorem Yields.concludes (h : p.Yields inputs result) :
    Session.Concludes inputs (.running, (Session.start p none).begin) result := by
  obtain ⟨σ, r, h, rfl⟩ := h
  have hr := Session.runs_task h _ _ [] (p.shows_begin inputs) p.frames_begin (Nat.zero_le _) rfl
  cases r with
  | some e => exact hr
  | none =>
    obtain ⟨t, ht, hf, hc⟩ := hr.pop rfl
    refine hc _ (.running ?_)
    rw [Session.step_of_nil hf, Progress.result, ← ht.events]
    exact .finished

theorem Yields.run (h : p.Yields inputs result) :
    ∃ n, ∀ fuel ≥ n, p.run fuel inputs = some result := by
  have hi : (p.outset inputs).inputs = inputs := rfl
  obtain ⟨n, hn⟩ := h.concludes.fueled (R := Left p (Session.start p none).begin.frames) hi
    ⟨_, p.shows_begin inputs, rfl, p.complete_begin, fun _ _ h => h⟩
  exact ⟨n, fun fuel hf => (p.run_eq_given fuel inputs).trans (hn fuel hf)⟩

theorem Yields.unique {result' : Except RunError (List Event)} (h : p.Yields inputs result)
    (h' : p.Yields inputs result') : result = result' := by
  obtain ⟨n, hn⟩ := h.run
  obtain ⟨n', hn'⟩ := h'.run
  have he := (hn (max n n') (Nat.le_max_left ..)).symm.trans (hn' _ (Nat.le_max_right ..))
  exact Option.some.inj he

/-- A program with answers to its inputs gives what the meaning of its tree gives, and nothing else;
it runs on forever exactly if its tree gives nothing. -/
theorem run_iff_yields (p : Program) (inputs : List String) :
    (∀ result, (∃ fuel, p.run fuel inputs = some result) ↔ p.Yields inputs result) ∧
      (∀ result result', p.Yields inputs result → p.Yields inputs result' → result = result') ∧
      ((∀ fuel, p.run fuel inputs = none) ↔ ¬ ∃ result, p.Yields inputs result) := by
  have hr : ∀ result, (∃ fuel, p.run fuel inputs = some result) ↔ p.Yields inputs result := by
    intro result
    constructor
    · rintro ⟨fuel, h⟩
      exact yields_of_run h
    · intro h
      obtain ⟨n, hn⟩ := h.run
      exact ⟨n, hn n (Nat.le_refl _)⟩
  refine ⟨hr, fun _ _ => Yields.unique, ?_⟩
  constructor
  · rintro h ⟨result, hy⟩
    obtain ⟨fuel, hf⟩ := (hr result).mpr hy
    rw [h fuel] at hf
    cases hf
  · intro h fuel
    cases hf : p.run fuel inputs with
    | none => rfl
    | some result => exact absurd ⟨result, yields_of_run hf⟩ h

end Program
end Pseudocode
