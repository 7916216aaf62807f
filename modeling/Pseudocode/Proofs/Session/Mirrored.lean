import Pseudocode.Proofs.Session.Steps
import Pseudocode.Proofs.View.Mirrored

/-! # Sessions of programs that mirror each other

Sessions of programs that are the same but for lines, and for numbers in directives that compare as equal, go on
in step. They report the same events and end the same, but for the line in the error of an instruction that
fails.
-/

namespace Pseudocode

/-- Whether two events are the same, apart from the lines of directives, and with the numbers of directives
compared as numbers. -/
def Event.same : Event → Event → Bool
  | .styled d, .styled e => d.same e
  | e, e' => e = e'

theorem Event.same_self {e : Event} (h : ∀ d, e ≠ .styled d) : e.same e := by
  cases e with
  | styled d => exact absurd rfl (h d)
  | _ => exact decide_eq_true rfl

def RunError.unlined : RunError → RunError
  | .failed path _ e => .failed path 0 e
  | e => e

def Frame.unlined (f : Frame) : Frame :=
  { f with
    instructions := f.instructions.map Instruction.unlined
    loop := f.loop.map Instruction.unlined }

theorem Except.cases_of_mapError_eq {ε ε' α : Type} {f : ε → ε'} {x y : Except ε α}
    (h : x.mapError f = y.mapError f) :
    (∃ e e', x = .error e ∧ y = .error e' ∧ f e = f e') ∨ ∃ a, x = .ok a ∧ y = .ok a := by
  cases x <;> cases y <;> simp_all [Except.mapError]

theorem Option.cases_of_map_eq {α β : Type} {f : α → β} {x y : Option α} (h : x.map f = y.map f) :
    (x = none ∧ y = none) ∨ ∃ a b, x = some a ∧ y = some b ∧ f a = f b := by
  cases x <;> cases y <;> simp_all

namespace Instruction

variable {i j : Instruction}

theorem kind_eq_of_unlined (h : i.unlined = j.unlined) : i.kind = j.kind := by
  simpa using congrArg kind h

theorem argument_eq_of_unlined (h : i.unlined = j.unlined) : i.argument = j.argument := by
  simpa using congrArg argument h

theorem argumentExpr_eq_of_unlined (h : i.unlined = j.unlined) :
    i.argumentExpr = j.argumentExpr := by
  simpa using congrArg argumentExpr h

theorem value_eq_of_unlined (h : i.unlined = j.unlined) : i.value = j.value := by
  simpa using congrArg value h

theorem body_eq_of_unlined (h : i.unlined = j.unlined) :
    i.body.map (List.map unlined) = j.body.map (List.map unlined) := by
  simpa using congrArg body h

theorem otherwise_eq_of_unlined (h : i.unlined = j.unlined) :
    i.otherwise.map (List.map unlined) = j.otherwise.map (List.map unlined) := by
  simpa using congrArg otherwise h

end Instruction

namespace Frame

variable {f g : Frame}

theorem path_eq_of_unlined (h : f.unlined = g.unlined) : f.path = g.path :=
  (congrArg path h :)

theorem nextPath_eq_of_unlined (h : f.unlined = g.unlined) : f.nextPath = g.nextPath :=
  (congrArg nextPath h :)

theorem loop_eq_of_unlined (h : f.unlined = g.unlined) :
    f.loop.map Instruction.unlined = g.loop.map Instruction.unlined :=
  congrArg loop h

theorem next_eq_of_unlined (h : f.unlined = g.unlined) :
    f.instructions[f.next]?.map Instruction.unlined =
      g.instructions[g.next]?.map Instruction.unlined := by
  rw [← List.getElem?_map, ← List.getElem?_map]
  exact congrArg (fun f => f.instructions[f.next]?) h

theorem map_unlined_enter {fs gs : List Frame} (h : f.unlined = g.unlined)
    (hs : fs.map unlined = gs.map unlined) :
    ({ f with next := f.next + 1 } :: fs).map unlined =
      ({ g with next := g.next + 1 } :: gs).map unlined :=
  congrArg₂ List.cons (congrArg (fun f => { f with next := f.next + 1 }) h) hs

end Frame

namespace Session

/-- The sessions are the same but for lines, and for numbers in directives that compare as equal. -/
structure Mirrors (s t : Session) : Prop where
  program : s.program.Mirrors t.program
  frames : s.frames.map Frame.unlined = t.frames.map Frame.unlined
  state : s.state = t.state
  started : s.started = t.started
  cancelled : s.cancelled = t.cancelled
  cancelAt : s.cancelAt = t.cancelAt
  environment : s.environment = t.environment
  events : List.Forall₂ (fun e e' => e.same e') s.events.toList t.events.toList

inductive Agree : Outcome × Session → Outcome × Session → Prop where
  | same (o : Outcome) {s t : Session} : s.Mirrors t → Agree (o, s) (o, t)
  | stopped {e e' : RunError} {s t : Session} : e.unlined = e'.unlined → s.Mirrors t →
      Agree (.stopped e, s) (.stopped e', t)

variable {s t : Session} {p q : Program} {e e' : Event} {i j : Instruction} {path : Path}

theorem mirrors_start (h : p.Mirrors q) (cancelAt : Option Nat) :
    (start p cancelAt).Mirrors (start q cancelAt) where
  program := h
  frames := by simp [start, Frame.unlined, h.instructions]
  state := rfl
  started := rfl
  cancelled := rfl
  cancelAt := rfl
  environment := rfl
  events := .nil

namespace Mirrors

/-! ## Reports -/

theorem emit (h : s.Mirrors t) (he : e.same e') : (s.emit e).Mirrors (t.emit e') where
  program := h.program
  frames := h.frames
  state := h.state
  started := h.started
  cancelled := by
    have hsize : s.events.size = t.events.size := h.events.length_eq
    simp only [Session.emit, h.cancelled, h.cancelAt, hsize]
  cancelAt := h.cancelAt
  environment := h.environment
  events := by
    rw [emit_events, emit_events]
    exact List.rel_append h.events (.cons he .nil)

theorem report (h : s.Mirrors t) (e : Event) (he : ∀ d, e ≠ .styled d) :
    (s.emit e).Mirrors (t.emit e) :=
  h.emit (Event.same_self he)

theorem emitAll {es es' : List Event} (h : s.Mirrors t)
    (hes : List.Forall₂ (fun e e' => e.same e') es es') : (s.emitAll es).Mirrors (t.emitAll es') := by
  induction hes generalizing s t with
  | nil => exact h
  | cons he _ ih => exact ih (h.emit he)

theorem styled {ds ds' : List Directive} (h : s.Mirrors t) (hds : SameDirectives ds ds') :
    (s.emitAll (ds.map .styled)).Mirrors (t.emitAll (ds'.map .styled)) :=
  h.emitAll (List.forall₂_map_left_iff.mpr (List.forall₂_map_right_iff.mpr hds))

theorem setFrames (h : s.Mirrors t) {fs gs : List Frame}
    (hfs : fs.map Frame.unlined = gs.map Frame.unlined) :
    { s with frames := fs }.Mirrors { t with frames := gs } :=
  { h with frames := hfs }

theorem setCurrent (h : s.Mirrors t) (c c' : Option (Path × Style)) :
    { s with current := c }.Mirrors { t with current := c' } :=
  { h with }

theorem setState (h : s.Mirrors t) (state : State) :
    { s with state := state }.Mirrors { t with state := state } :=
  { h with state := rfl }

theorem push (h : s.Mirrors t) {is js : List Instruction} {loop loop' : Option Instruction}
    {offset offset' : Nat} (hseq : is.map Instruction.unlined = js.map Instruction.unlined)
    (hoffset : offset = offset') (hloop : loop.map Instruction.unlined = loop'.map Instruction.unlined)
    (path : Path) :
    (s.push ⟨is, 0, path, offset, loop⟩).Mirrors (t.push ⟨js, 0, path, offset', loop'⟩) := by
  refine h.setFrames ?_
  simp only [List.map_cons, Frame.unlined, hseq, hoffset, hloop, h.frames]

theorem assign (h : s.Mirrors t) (x : String) (v : Value) :
    (s.assign x v).Mirrors (t.assign x v) := by
  have hbound : { s with environment := s.environment.insert x v }.Mirrors
      { t with environment := t.environment.insert x v } :=
    { h with environment := by rw [h.environment] }
  exact hbound.report _ nofun

theorem enter (h : s.Mirrors t) (hij : i.unlined = j.unlined) (path : Path) :
    (s.enter i path).Mirrors (t.enter j path) := by
  have hkind := Instruction.kind_eq_of_unlined hij
  have hds := (h.program.aimedAt path).filter fun d e hd => Directive.appliesTo_of_same hd j.kind
  unfold Session.enter
  rw [hkind]
  exact ((h.styled hds).setCurrent _ _).report _ nofun

/-! ## Performing an instruction -/

theorem evaluate (h : s.Mirrors t) (hij : i.unlined = j.unlined) (path : Path) (e : Option Expr) :
    (s.evaluate i path e).mapError RunError.unlined =
      (t.evaluate j path e).mapError RunError.unlined := by
  cases e with
  | none => rw [Session.evaluate, Session.evaluate, Instruction.kind_eq_of_unlined hij]
  | some e =>
    rw [Session.evaluate, Session.evaluate, h.environment]
    cases e.eval t.environment <;> rfl

theorem condition (h : s.Mirrors t) (hij : i.unlined = j.unlined) (path : Path) :
    (s.condition i path).mapError RunError.unlined =
      (t.condition j path).mapError RunError.unlined := by
  have hvalue := h.evaluate hij path j.argumentExpr
  unfold Session.condition
  rw [Instruction.argumentExpr_eq_of_unlined hij, Instruction.kind_eq_of_unlined hij]
  obtain ⟨e, e', hs, ht, he⟩ | ⟨v, hs, ht⟩ := Except.cases_of_mapError_eq hvalue
  · rw [hs, ht]
    exact congrArg Except.error he
  · rw [hs, ht]
    cases v <;> rfl

theorem perform (h : s.Mirrors t) (hij : i.unlined = j.unlined) (path : Path) :
    Agree (s.perform i path) (t.perform j path) := by
  have hkind := Instruction.kind_eq_of_unlined hij
  cases hk : j.kind with
  | assign =>
    have hvalue := h.evaluate hij path j.value
    simp only [Session.perform, hkind, hk, Instruction.argument_eq_of_unlined hij,
      Instruction.value_eq_of_unlined hij]
    obtain ⟨e, e', hs, ht, he⟩ | ⟨v, hs, ht⟩ := Except.cases_of_mapError_eq hvalue
    · rw [hs, ht]
      exact .stopped he h
    · rw [hs, ht]
      exact .same _ (h.assign _ v)
  | display =>
    have hvalue := h.evaluate hij path j.argumentExpr
    simp only [Session.perform, hkind, hk, Instruction.argumentExpr_eq_of_unlined hij]
    obtain ⟨e, e', hs, ht, he⟩ | ⟨v, hs, ht⟩ := Except.cases_of_mapError_eq hvalue
    · rw [hs, ht]
      exact .stopped he h
    · rw [hs, ht]
      exact .same _ (h.report (.displayed v) (by rintro _ ⟨⟩))
  | input =>
    simp only [Session.perform, hkind, hk, Instruction.argument_eq_of_unlined hij]
    exact .same _ ((h.report (.inputRequested j.argument) (by rintro _ ⟨⟩)).setState _)
  | branch =>
    simp only [Session.perform, hkind, hk]
    obtain ⟨hb, hb'⟩ | ⟨body, body', hb, hb', hbody⟩ :=
      Option.cases_of_map_eq (Instruction.body_eq_of_unlined hij)
    · rw [hb, hb']
      exact .same _ h
    simp only [hb, hb']
    obtain ⟨e, e', hs, ht, he⟩ | ⟨b, hs, ht⟩ := Except.cases_of_mapError_eq (h.condition hij path)
    · rw [hs, ht]
      exact .stopped he h
    rw [hs, ht]
    cases b with
    | true => exact .same _ (h.push hbody rfl rfl path)
    | false =>
      have hlength : body.length = body'.length := by simpa using congrArg List.length hbody
      obtain ⟨ho, ho'⟩ | ⟨otherwise, otherwise', ho, ho', hotherwise⟩ :=
        Option.cases_of_map_eq (Instruction.otherwise_eq_of_unlined hij)
      · simp only [ho, ho']
        exact .same _ h
      · simp only [ho, ho']
        exact .same _ (h.push hotherwise hlength rfl path)
  | loop =>
    simp only [Session.perform, hkind, hk]
    obtain ⟨hb, hb'⟩ | ⟨body, body', hb, hb', hbody⟩ :=
      Option.cases_of_map_eq (Instruction.body_eq_of_unlined hij)
    · rw [hb, hb']
      exact .same _ h
    simp only [hb, hb']
    obtain ⟨e, e', hs, ht, he⟩ | ⟨b, hs, ht⟩ := Except.cases_of_mapError_eq (h.condition hij path)
    · rw [hs, ht]
      exact .stopped he h
    rw [hs, ht]
    cases b with
    | true =>
      have hloop : (some i).map Instruction.unlined = (some j).map Instruction.unlined :=
        congrArg some hij
      exact .same _ (h.push hbody rfl hloop path)
    | false => exact .same _ h

/-! ## Steps and runs -/

theorem stateAfter_eq_of_unlined {e e' : RunError} (h : e.unlined = e'.unlined) :
    stateAfter e = stateAfter e' := by
  have hstate (e : RunError) : stateAfter e.unlined = stateAfter e := by cases e <;> rfl
  rw [← hstate e, h, hstate e']

theorem execute (h : s.Mirrors t) (hij : i.unlined = j.unlined) (path : Path) :
    Agree (s.execute i path) (t.execute j path) :=
  (h.enter hij path).perform hij path

theorem step (h : s.Mirrors t) : Agree s.step t.step := by
  have hframes := h.frames
  cases hf : s.frames with
  | nil =>
    rw [hf] at hframes
    have hg : t.frames = [] := List.map_eq_nil_iff.mp hframes.symm
    rw [step_of_nil hf, step_of_nil hg]
    exact .same _ (h.setState _)
  | cons f fs =>
    rw [hf] at hframes
    obtain ⟨g, gs, hg, hgf, hgs⟩ := List.map_eq_cons_iff.mp hframes.symm
    have hcancelled := h.cancelled
    obtain ⟨hi, hj⟩ | ⟨i, j, hi, hj, hij⟩ :=
      Option.cases_of_map_eq (Frame.next_eq_of_unlined hgf.symm)
    · have hleave : { s with frames := fs }.Mirrors { t with frames := gs } := h.setFrames hgs.symm
      obtain ⟨hl, hl'⟩ | ⟨i, j, hl, hl', hij⟩ :=
        Option.cases_of_map_eq (Frame.loop_eq_of_unlined hgf.symm)
      · rw [step_of_done hf hi hl, step_of_done hg hj hl']
        exact .same _ hleave
      · have hpath : f.path = g.path := Frame.path_eq_of_unlined hgf.symm
        cases hc : s.cancelled with
        | true =>
          rw [step_of_again_cancelled hf hi hl hc,
            step_of_again_cancelled hg hj hl' (hcancelled.symm.trans hc), hpath]
          exact .same _ hleave
        | false =>
          rw [step_of_again hf hi hl hc, step_of_again hg hj hl' (hcancelled.symm.trans hc), hpath]
          exact hleave.execute hij g.path
    · have hpath : f.nextPath = g.nextPath := Frame.nextPath_eq_of_unlined hgf.symm
      cases hc : s.cancelled with
      | true =>
        rw [step_of_next_cancelled hf hi hc, step_of_next_cancelled hg hj (hcancelled.symm.trans hc), hpath]
        exact .same _ h
      | false =>
        rw [step_of_next hf hi hc, step_of_next hg hj (hcancelled.symm.trans hc), hpath]
        exact (h.setFrames (Frame.map_unlined_enter hgf.symm hgs.symm)).execute hij g.nextPath

theorem steps (h : s.Mirrors t) (fuel : Nat) : Agree (s.steps fuel) (t.steps fuel) := by
  induction fuel generalizing s t with
  | zero => exact .same _ h
  | succ fuel ih =>
    have hstep := h.step
    unfold Session.steps
    generalize s.step = a, t.step = b at hstep
    cases hstep with
    | same o hst =>
      cases o with
      | running => exact ih hst
      | stopped e => exact .same _ (hst.setState _)
      | _ => exact .same _ hst
    | stopped he hst =>
      dsimp only
      rw [stateAfter_eq_of_unlined he]
      exact .stopped he (hst.setState _)

theorem begin (h : s.Mirrors t) : s.begin.Mirrors t.begin := by
  have hstarted : { s with started := true }.Mirrors { t with started := true } :=
    { h with started := rfl }
  unfold Session.begin
  rw [h.started]
  split
  · exact h
  · exact hstarted.styled h.program.globals

theorem run (h : s.Mirrors t) (fuel : Nat) : Agree (s.run fuel) (t.run fuel) := by
  unfold Session.run
  rw [h.state]
  split
  · exact h.begin.steps fuel
  · exact .same _ h
  · exact .same _ h

theorem answer (h : s.Mirrors t) (name raw : String) :
    (∃ e, s.answer name raw = .error e ∧ t.answer name raw = .error e) ∨
      ∃ s' t', s.answer name raw = .ok s' ∧ t.answer name raw = .ok t' ∧ s'.Mirrors t' := by
  unfold Session.answer
  rw [h.state]
  split
  · split
    · exact .inr ⟨_, _, rfl, rfl, (h.assign _ _).setState _⟩
    · exact .inl ⟨_, rfl, rfl⟩
  · exact .inl ⟨_, rfl, rfl⟩

theorem runWith (h : s.Mirrors t) (fuel : Nat) (inputs : List String) :
    Agree (s.runWith fuel inputs) (t.runWith fuel inputs) := by
  induction inputs generalizing s t with
  | nil =>
    have hrun := h.run fuel
    unfold Session.runWith
    generalize s.run fuel = a, t.run fuel = b at hrun
    cases hrun with
    | same o hst => cases o <;> exact .same _ hst
    | stopped he hst => exact .stopped he hst
  | cons raw inputs ih =>
    have hrun := h.run fuel
    unfold Session.runWith
    generalize s.run fuel = a, t.run fuel = b at hrun
    cases hrun with
    | same o hst =>
      cases o with
      | waiting name =>
        rcases hst.answer name raw with ⟨e, hs, ht⟩ | ⟨s', t', hs, ht, hanswer⟩
        · simp only [hs, ht]
          exact .same _ hst
        · simp only [hs, ht]
          exact ih hanswer
      | _ => exact .same _ hst
    | stopped he hst => exact .stopped he hst

end Mirrors

end Session

/-- The runs end alike, or neither ends: they have the same events, or the same error, but for lines, and for
numbers in directives that compare as equal. -/
inductive RunsAlike : Option (Except RunError (List Event)) →
    Option (Except RunError (List Event)) → Prop where
  | unfinished : RunsAlike none none
  | events {es es' : List Event} : List.Forall₂ (fun e e' => e.same e') es es' →
      RunsAlike (some (.ok es)) (some (.ok es'))
  | error {e e' : RunError} : e.unlined = e'.unlined →
      RunsAlike (some (.error e)) (some (.error e'))

namespace Program

variable {p q : Program}

theorem Mirrors.run (h : p.Mirrors q) (fuel : Nat) (inputs : List String) :
    RunsAlike (p.run fuel inputs) (q.run fuel inputs) := by
  have hrun := (Session.mirrors_start h none).runWith fuel inputs
  unfold Program.run
  generalize (Session.start p none).runWith fuel inputs = a,
    (Session.start q none).runWith fuel inputs = b at hrun
  cases hrun with
  | same o hst =>
    cases o with
    | finished => exact .events hst.events
    | stopped e => exact .error rfl
    | _ => exact .unfinished
  | stopped he _ => exact .error he

/-- Programs of the same shape behave the same: whatever the inputs, their runs report the same, or neither
ends, and their flowcharts are the same. -/
theorem behaves_of_sameShape {a b : String} (hp : ofSource a = .ok p) (hq : ofSource b = .ok q)
    (h : p.sameShape q) :
    (∀ (fuel : Nat) (inputs : List String), RunsAlike (p.run fuel inputs) (q.run fuel inputs)) ∧
      (Flowchart.ofProgram p).Same (Flowchart.ofProgram q) := by
  have hpq : p.Mirrors q := mirrors_of_sameShape hp hq h
  exact ⟨fun fuel inputs => hpq.run fuel inputs, Flowchart.ofProgram_same hpq⟩

theorem behaves_of_sameShape_parens :
    ∃ p q, ofSource "LEER x\nMOSTRAR x + 1" = .ok p ∧ ofSource "\nLEER x\nMOSTRAR (x + 1)" = .ok q ∧
      p.sameShape q ∧
      (∀ (fuel : Nat) (inputs : List String), RunsAlike (p.run fuel inputs) (q.run fuel inputs)) ∧
      (Flowchart.ofProgram p).Same (Flowchart.ofProgram q) := by
  have hts : Token.ofSource "LEER x\nMOSTRAR x + 1" =
      .ok (Token.scan "LEER x\nMOSTRAR x + 1").1 := by
    decide +kernel
  have hts' : Token.ofSource "\nLEER x\nMOSTRAR (x + 1)" =
      .ok (Token.scan "\nLEER x\nMOSTRAR (x + 1)").1 := by
    decide +kernel
  have hcontent : Content.ofTokens (Token.scan "LEER x\nMOSTRAR x + 1").1 =
      .ok ⟨[.input "x" 1,
        .display (.binary (.var "x") (.arith .add) (.literal (.integer 1))) 2], []⟩ := by
    cbv
  have hcontent' : Content.ofTokens (Token.scan "\nLEER x\nMOSTRAR (x + 1)").1 =
      .ok ⟨[.input "x" 2,
        .display (.binary (.var "x") (.arith .add) (.literal (.integer 1))) 3], []⟩ := by
    cbv
  have hp : ofSource "LEER x\nMOSTRAR x + 1" = .ok ⟨_, [], [], rfl, rfl⟩ :=
    ofSource_eq_ok_iff.mpr ⟨_, _, hts, hcontent, rfl, rfl⟩
  have hq : ofSource "\nLEER x\nMOSTRAR (x + 1)" = .ok ⟨_, [], [], rfl, rfl⟩ :=
    ofSource_eq_ok_iff.mpr ⟨_, _, hts', hcontent', rfl, rfl⟩
  exact ⟨_, _, hp, hq, by decide, behaves_of_sameShape hp hq (by decide)⟩

end Program
end Pseudocode
