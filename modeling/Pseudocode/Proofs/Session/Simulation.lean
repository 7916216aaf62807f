import Pseudocode.Proofs.Session.Steps

/-! # The stack of sequences and the tree

A session keeps the sequences on their way in a stack, and checks the condition of a loop again when
its body is popped. What is left of a stack is what its sequences still have to run by the meaning of
the tree; a step keeps that, so that a session which ends gives what the tree means. Conversely, every
task that ends by its meaning is run to the same end by finitely many steps.
-/

namespace Pseudocode

/-! ## What is left of a stack -/

def andThen (R S : Progress → Progress → Option RunError → Prop) (σ τ : Progress)
    (r : Option RunError) : Prop :=
  (∃ ρ, R σ ρ none ∧ S ρ τ r) ∨ ∃ e, r = some e ∧ R σ τ (some e)

theorem andThen_assoc {R S T : Progress → Progress → Option RunError → Prop} {σ τ : Progress}
    {r : Option RunError} (h : andThen R (andThen S T) σ τ r) :
    andThen (andThen R S) T σ τ r := by
  rcases h with ⟨ρ, hR, ⟨ρ', hS, hT⟩ | ⟨e, rfl, hS⟩⟩ | ⟨e, rfl, hR⟩
  · exact .inl ⟨ρ', .inl ⟨ρ, hR, hS⟩, hT⟩
  · exact .inr ⟨e, rfl, .inl ⟨ρ, hR, hS⟩⟩
  · exact .inr ⟨e, rfl, .inr ⟨e, rfl, hR⟩⟩

theorem andThen_mono {R R' S : Progress → Progress → Option RunError → Prop} {σ σ' τ : Progress}
    {r : Option RunError} (hR : ∀ ρ r, R σ ρ r → R' σ' ρ r) (h : andThen R S σ τ r) :
    andThen R' S σ' τ r := by
  rcases h with ⟨ρ, h, hS⟩ | ⟨e, rfl, h⟩
  · exact .inl ⟨ρ, hR _ _ h, hS⟩
  · exact .inr ⟨e, rfl, hR _ _ h⟩

theorem andThen_skip {R : Progress → Progress → Option RunError → Prop} {σ τ : Progress}
    {r : Option RunError} : andThen R (fun σ τ r => τ = σ ∧ r = none) σ τ r ↔ R σ τ r := by
  constructor
  · rintro (⟨ρ, h, rfl, rfl⟩ | ⟨e, rfl, h⟩)
    · exact h
    · exact h
  · intro h
    cases r with
    | none => exact .inl ⟨τ, h, rfl, rfl⟩
    | some e => exact .inr ⟨e, rfl, h⟩

namespace Frame

def remainder (f : Frame) : Task :=
  .sequence (f.instructions.drop f.next) f.path (f.offset + f.next + 1)

theorem remainder_eq_cons {f : Frame} {i : Instruction} {is : List Instruction} {path : Path}
    {n : Nat} (h : f.remainder = .sequence (i :: is) path n) :
    f.next < f.instructions.length ∧ f.instructions[f.next]? = some i ∧
      f.instructions.drop (f.next + 1) = is ∧ f.path = path ∧ f.offset + f.next + 1 = n := by
  injection h with hd hp hn
  have hlt : f.next < f.instructions.length := by
    have hl := congrArg List.length hd
    simp only [List.length_drop, List.length_cons] at hl
    omega
  rw [List.drop_eq_getElem_cons hlt, List.cons.injEq] at hd
  exact ⟨hlt, by rw [List.getElem?_eq_getElem hlt, hd.1], hd.2, hp, hn⟩

/-- What follows the end of the sequence: the loop that it is the body of. -/
def After (p : Program) (f : Frame) (σ τ : Progress) (r : Option RunError) : Prop :=
  match f.loop with
  | none => τ = σ ∧ r = none
  | some i => Runs p (.one i f.path) σ τ r

structure Complete (f : Frame) : Prop where
  instructions : ∀ i ∈ f.instructions, i.Complete
  loop : ∀ i, f.loop = some i → i.Complete

end Frame

theorem Instruction.Complete.frame_body {i : Instruction} (h : i.Complete)
    {body : List Instruction} (hb : i.body = some body) (path : Path) (loop : Option Instruction)
    (hl : ∀ j, loop = some j → j.Complete) : Frame.Complete ⟨body, 0, path, 0, loop⟩ where
  instructions j hj := h.children j (by simp [Instruction.children, hb, hj])
  loop := hl

theorem Instruction.Complete.frame_otherwise {i : Instruction} (h : i.Complete)
    {otherwise : List Instruction} (ho : i.otherwise = some otherwise) (path : Path) (n : Nat) :
    Frame.Complete ⟨otherwise, 0, path, n, none⟩ where
  instructions j hj := h.children j (by simp [Instruction.children, ho, hj])
  loop j hj := by simp at hj

/-- What a stack has still to run, the innermost sequence first. -/
def Left (p : Program) : List Frame → Progress → Progress → Option RunError → Prop
  | [], σ, τ, r => τ = σ ∧ r = none
  | f :: fs, σ, τ, r => andThen (Runs p f.remainder) (andThen (f.After p) (Left p fs)) σ τ r

theorem Runs.of_cons {p : Program} {i : Instruction} {is : List Instruction} {path : Path} {n : Nat}
    {σ τ : Progress} {r : Option RunError}
    (h : andThen (Runs p (.one i (path.child n))) (Runs p (.sequence is path (n + 1))) σ τ r) :
    Runs p (.sequence (i :: is) path n) σ τ r := by
  rcases h with ⟨ρ, hi, his⟩ | ⟨e, rfl, hi⟩
  · exact .next hi his
  · exact .halt hi

namespace Session

variable {s t : Session} {σ : Progress} {p : Program}

/-- A result of a step leads to the end of the session, its inputs being answered in turn. -/
inductive Concludes :
    List String → Outcome × Session → Except RunError (List Event) → Prop where
  | running {inputs : List String} {s : Session} {result : Except RunError (List Event)} :
      Concludes inputs s.step result → Concludes inputs (.running, s) result
  | answered {inputs : List String} {x raw : String} {s s' : Session}
      {result : Except RunError (List Event)} :
      s.answer x raw = .ok s' → Concludes inputs (.running, s') result →
      Concludes (raw :: inputs) (.waiting x, s) result
  | exhausted {x : String} {s : Session} :
      Concludes [] (.waiting x, s) (.error (.inputExhausted x))
  | finished {inputs : List String} {s : Session} :
      Concludes inputs (.finished, s) (.ok s.events.toList)
  | stopped {inputs : List String} {e : RunError} {s : Session} :
      Concludes inputs (.stopped e, s) (.error e)

/-- What the result of a step still leads to, `R` being what was to be run before it from `σ` on. -/
def Keeps (p : Program) (R : Progress → Progress → Option RunError → Prop) (σ : Progress) :
    Outcome × Session → Prop
  | (.running, s) => ∃ σ', s.Shows p σ' ∧ σ'.inputs = σ.inputs ∧ (∀ f ∈ s.frames, f.Complete) ∧
      ∀ τ r, Left p s.frames σ' τ r → R σ τ r
  | (.waiting x, s) => ∃ σ', s.state = .waiting x ∧ { s with state := .ready }.Shows p σ' ∧
      (∀ f ∈ s.frames, f.Complete) ∧
      (σ.inputs = [] → R σ σ' (some (.inputExhausted x))) ∧
      ∀ raw rest, σ.inputs = raw :: rest → ∀ τ r,
        Left p s.frames ({ σ' with inputs := rest }.bind x (.ofInput raw)) τ r → R σ τ r
  | (.finished, s) => ∃ τ, s.events.toList = τ.events ∧ R σ τ none
  | (.stopped e, _) => ∃ τ, R σ τ (some e)

theorem Keeps.mono {R R' : Progress → Progress → Option RunError → Prop} {σ' : Progress}
    {oc : Outcome × Session} (h : Keeps p R σ oc) (hi : σ.inputs = σ'.inputs)
    (hR : ∀ τ r, R σ τ r → R' σ' τ r) : Keeps p R' σ' oc := by
  match oc, h with
  | (.running, s), ⟨ρ, hs, hi', hc, hl⟩ =>
    exact ⟨ρ, hs, hi'.trans hi, hc, fun τ r h => hR _ _ (hl τ r h)⟩
  | (.waiting x, s), ⟨ρ, hw, hs, hc, h₀, h₁⟩ =>
    exact ⟨ρ, hw, hs, hc, fun h => hR _ _ (h₀ (hi.trans h)),
      fun raw rest h τ r hl => hR _ _ (h₁ raw rest (hi.trans h) τ r hl)⟩
  | (.finished, s), ⟨τ, he, h⟩ => exact ⟨τ, he, hR _ _ h⟩
  | (.stopped e, s), ⟨τ, h⟩ => exact ⟨τ, hR _ _ h⟩

theorem Keeps.of_shows {i : Instruction} {path : Path} {σ' : Progress} {fs : List Frame}
    (hs : s.Shows p σ') (hi : σ'.inputs = σ.inputs) (hc : ∀ f ∈ s.frames, f.Complete)
    (hf : s.frames = fs) (hr : Runs p (.one i path) σ σ' none) :
    Keeps p (andThen (Runs p (.one i path)) (Left p fs)) σ (.running, s) :=
  ⟨σ', hs, hi, hc, fun _ _ h => .inl ⟨σ', hr, hf ▸ h⟩⟩

theorem Keeps.of_push {i : Instruction} {path : Path} {σ' : Progress} {fs : List Frame} {f : Frame}
    (hs : s.Shows p σ') (hi : σ'.inputs = σ.inputs) (hc : ∀ g ∈ s.frames, g.Complete)
    (hf : s.frames = fs) (hn : f.Complete)
    (hr : ∀ τ r, andThen (Runs p f.remainder) (f.After p) σ' τ r → Runs p (.one i path) σ τ r) :
    Keeps p (andThen (Runs p (.one i path)) (Left p fs)) σ (.running, s.push f) := by
  refine ⟨σ', hs.setFrames _, hi, ?_, fun τ r h => ?_⟩
  · intro g hg
    rcases List.mem_cons.mp hg with rfl | hg
    · exact hn
    · exact hc g hg
  · subst hf
    exact andThen_mono hr (andThen_assoc h)

theorem execute_keeps {i : Instruction} {path : Path} (hs : s.Shows p σ)
    (hc : ∀ f ∈ s.frames, f.Complete) (hi : i.Complete) :
    Keeps p (andThen (Runs p (.one i path)) (Left p s.frames)) σ (s.execute i path) := by
  have he := hs.enter i path
  have hf := enter_frames (s := s) i path
  have hc' : ∀ f ∈ (s.enter i path).frames, f.Complete := fun f h => hc f (hf ▸ h)
  obtain ⟨a, ha⟩ := Option.isSome_iff_exists.mp hi.action
  unfold execute
  cases a with
  | assign x e =>
    rw [perform_assign _ ha, hs.enter_environment]
    cases h : e.eval σ.environment with
    | error err => exact ⟨_, .inr ⟨_, rfl, .assign_fails ha h⟩⟩
    | ok v => exact .of_shows (he.assign x v) rfl hc' hf (.assign ha h)
  | display e =>
    rw [perform_display _ ha, hs.enter_environment]
    cases h : e.eval σ.environment with
    | error err => exact ⟨_, .inr ⟨_, rfl, .display_fails ha h⟩⟩
    | ok v => exact .of_shows (he.emit _) rfl hc' hf (.display ha h)
  | input x =>
    rw [perform_input _ ha]
    refine ⟨_, rfl, ?_, hc', fun h => .inr ⟨_, rfl, .input_exhausted ha h⟩, fun raw rest h τ r hl => ?_⟩
    · exact (he.emit (.inputRequested x)).setReady
    · exact .inl ⟨_, .input ha h, hf ▸ hl⟩
  | branch c body otherwise =>
    rw [perform_branch _ ha, hs.enter_environment]
    obtain ⟨-, -, hb, ho⟩ := Instruction.action?_eq_branch.mp ha
    cases h : c.truth σ.environment i.kind.keyword with
    | error err => exact ⟨_, .inr ⟨_, rfl, .branch_fails ha h⟩⟩
    | ok b =>
      cases b with
      | true =>
        refine .of_push he rfl hc' hf (hi.frame_body hb path none (by simp)) fun τ r hr => ?_
        exact .branch_then ha h (andThen_skip.mp hr)
      | false =>
        cases hi' : i.otherwise with
        | none =>
          simp only [hi', Option.getD_none] at ho
          subst ho
          exact .of_shows he rfl hc' hf (.branch_else ha h .nil)
        | some o =>
          simp only [hi', Option.getD_some] at ho
          subst ho
          refine .of_push he rfl hc' hf (hi.frame_otherwise hi' path _) fun τ r hr => ?_
          exact .branch_else ha h (andThen_skip.mp hr)
  | loop c body =>
    rw [perform_loop _ ha, hs.enter_environment]
    obtain ⟨-, -, hb⟩ := Instruction.action?_eq_loop.mp ha
    cases h : c.truth σ.environment i.kind.keyword with
    | error err => exact ⟨_, .inr ⟨_, rfl, .loop_fails ha h⟩⟩
    | ok b =>
      cases b with
      | true =>
        refine .of_push he rfl hc' hf (hi.frame_body hb path (some i) (by simp [hi])) fun τ r hr => ?_
        rcases hr with ⟨ρ, hb, ha'⟩ | ⟨e, rfl, hb⟩
        · exact .loop_again ha h hb ha'
        · exact .loop_halt ha h hb
      | false => exact .of_shows he rfl hc' hf (.loop_done ha h)

theorem step_keeps (hs : s.Shows p σ) (hc : ∀ f ∈ s.frames, f.Complete) :
    Keeps p (Left p s.frames) σ s.step := by
  cases hf : s.frames with
  | nil =>
    rw [step_of_nil hf]
    exact ⟨σ, hs.events, rfl, rfl⟩
  | cons f fs =>
    rw [hf] at hc
    obtain ⟨hc₀, hc₁⟩ := List.forall_mem_cons.mp hc
    cases hi : f.instructions[f.next]? with
    | none =>
      have hd : f.instructions.drop f.next = [] :=
        List.drop_eq_nil_of_le (List.getElem?_eq_none_iff.mp hi)
      have hl : ∀ τ r, andThen (f.After p) (Left p fs) σ τ r → Left p (f :: fs) σ τ r :=
        fun τ r h => .inl ⟨σ, by rw [Frame.remainder, hd]; exact .nil, h⟩
      cases hloop : f.loop with
      | none =>
        rw [step_of_done hf hi hloop]
        refine ⟨σ, hs.setFrames fs, rfl, hc₁, fun τ r h => hl τ r (.inl ⟨σ, ?_, h⟩)⟩
        simp [Frame.After, hloop]
      | some i =>
        rw [step_of_again hf hi hloop hs.cancelled]
        refine (execute_keeps (hs.setFrames fs) hc₁ (hc₀.loop i hloop)).mono rfl
          fun τ r h => hl τ r ?_
        refine andThen_mono (fun ρ r h => ?_) h
        simpa [Frame.After, hloop] using h
    | some i =>
      rw [step_of_next hf hi hs.cancelled]
      obtain ⟨hlt, rfl⟩ := List.getElem?_eq_some_iff.mp hi
      have hn : ∀ g ∈ ({ f with next := f.next + 1 } :: fs), g.Complete :=
        List.forall_mem_cons.mpr ⟨⟨hc₀.instructions, hc₀.loop⟩, hc₁⟩
      refine (execute_keeps (hs.setFrames _) hn (hc₀.instructions _ (List.getElem_mem hlt))).mono
        rfl fun τ r h => ?_
      refine andThen_mono (fun ρ r h => ?_) (andThen_assoc h)
      rw [Frame.remainder, List.drop_eq_getElem_cons hlt]
      exact .of_cons h

/-- Where a session ends, the meaning of what it had to run ends too, with the same result. -/
theorem Concludes.exists_result {inputs : List String} {oc : Outcome × Session}
    {result : Except RunError (List Event)} (h : Concludes inputs oc result)
    {R : Progress → Progress → Option RunError → Prop} (hi : σ.inputs = inputs)
    (hk : Keeps p R σ oc) : ∃ τ r, R σ τ r ∧ τ.result r = result := by
  induction h generalizing R σ with
  | running _ ih =>
    obtain ⟨σ', hs, hi', hc, hl⟩ := hk
    obtain ⟨τ, r, hr, he⟩ := ih (hi'.trans hi) (step_keeps hs hc)
    exact ⟨τ, r, hl τ r hr, he⟩
  | @answered rest x raw s s' result ha _ ih =>
    obtain ⟨σ', hw, hs, hc, -, hl⟩ := hk
    rw [answer_of_waiting raw hw, Except.ok.injEq] at ha
    subst ha
    have hs' := (hs.setInputs rest).assign x (.ofInput raw)
    obtain ⟨τ, r, hr, he⟩ := ih (R := Left p s.frames) rfl ⟨_, hs', rfl, hc, fun τ r h => h⟩
    exact ⟨τ, r, hl _ _ hi τ r hr, he⟩
  | exhausted =>
    obtain ⟨σ', -, -, -, hl, -⟩ := hk
    exact ⟨σ', _, hl hi, rfl⟩
  | finished =>
    obtain ⟨τ, he, hr⟩ := hk
    exact ⟨τ, none, hr, by rw [he]; rfl⟩
  | stopped =>
    obtain ⟨τ, hr⟩ := hk
    exact ⟨τ, _, hr, rfl⟩

/-! ## From the tree to the steps -/

/-- From the result of a step a session gets to the end of a task: to the progress `τ` with the
stack `fs`, or to an error. -/
def Reaches (p : Program) (inputs : List String) (oc : Outcome × Session) (fs : List Frame)
    (τ : Progress) : Option RunError → Prop
  | none => ∃ t : Session, t.Shows p τ ∧ t.frames = fs ∧
      ∀ result, Concludes τ.inputs (.running, t) result → Concludes inputs oc result
  | some e => Concludes inputs oc (.error e)

section

variable {inputs : List String} {oc : Outcome × Session} {f : Frame} {fs gs : List Frame}
  {ρ τ : Progress} {r : Option RunError}

theorem Reaches.of_shows (hs : t.Shows p τ) (hf : t.frames = fs) :
    Reaches p τ.inputs (.running, t) fs τ none :=
  ⟨t, hs, hf, fun _ h => h⟩

theorem Reaches.trans (h : Reaches p inputs oc gs ρ none)
    (ht : ∀ t : Session, t.Shows p ρ → t.frames = gs → Reaches p ρ.inputs (.running, t) fs τ r) :
    Reaches p inputs oc fs τ r := by
  obtain ⟨t, hs, hf, hc⟩ := h
  cases r with
  | none =>
    obtain ⟨t', hs', hf', hc'⟩ := ht t hs hf
    exact ⟨t', hs', hf', fun result h => hc _ (hc' _ h)⟩
  | some e => exact hc _ (ht t hs hf)

theorem Reaches.of_step (h : Reaches p inputs s.step fs τ r) :
    Reaches p inputs (.running, s) fs τ r := by
  cases r with
  | none =>
    obtain ⟨t, hs, hf, hc⟩ := h
    exact ⟨t, hs, hf, fun result h => .running (hc _ h)⟩
  | some e => exact .running h

theorem Reaches.pop (hl : f.loop = none)
    (h : Reaches p inputs oc ({ f with next := f.instructions.length } :: fs) τ r) :
    Reaches p inputs oc fs τ r := by
  cases r with
  | none =>
    refine h.trans fun t hs hf => .of_step ?_
    rw [step_of_done hf (List.getElem?_eq_none (Nat.le_refl _)) hl]
    exact .of_shows (hs.setFrames fs) rfl
  | some e => exact h

end

/-- A session runs the task from `σ` to its end: at once, or as what is left of the sequence on top
of the stack. -/
def RunsTask (p : Program) (σ τ : Progress) (r : Option RunError) : Task → Prop
  | .one i path => ∀ s : Session, s.Shows p σ → Reaches p σ.inputs (s.execute i path) s.frames τ r
  | task => ∀ (s : Session) (f : Frame) (fs : List Frame), s.Shows p σ → s.frames = f :: fs →
      f.next ≤ f.instructions.length → f.remainder = task →
      Reaches p σ.inputs (.running, s) ({ f with next := f.instructions.length } :: fs) τ r

theorem RunsTask.push {σ τ : Progress} {r : Option RunError} {f : Frame} (hs : s.Shows p σ)
    (hn : f.next = 0) (h : RunsTask p σ τ r f.remainder) :
    Reaches p σ.inputs (.running, s.push f) ({ f with next := f.instructions.length } :: s.frames)
      τ r :=
  h (s.push f) f s.frames (hs.setFrames _) rfl (hn ▸ Nat.zero_le _) rfl

theorem runs_task {task : Task} {τ : Progress} {r : Option RunError} (h : Runs p task σ τ r) :
    RunsTask p σ τ r task := by
  induction h with
  | nil =>
    intro s f fs hs hf hn hr
    injection hr with hd
    have hnext : f.next = f.instructions.length :=
      Nat.le_antisymm hn (List.drop_eq_nil_iff.mp hd)
    rw [← hnext]
    exact .of_shows hs hf
  | @next i is path n σ σ' σ'' r _ _ ih ih' =>
    intro s f fs hs hf hn hr
    obtain ⟨hlt, hi, his, rfl, rfl⟩ := Frame.remainder_eq_cons hr
    have hi : Reaches p σ.inputs s.step ({ f with next := f.next + 1 } :: fs) σ' none := by
      rw [step_of_next hf hi hs.cancelled]
      exact ih _ (hs.setFrames _)
    exact hi.of_step.trans fun t ht hft =>
      ih' t { f with next := f.next + 1 } fs ht hft hlt (by rw [← his]; rfl)
  | halt _ ih =>
    intro s f fs hs hf hn hr
    obtain ⟨hlt, hi, his, rfl, rfl⟩ := Frame.remainder_eq_cons hr
    refine .of_step ?_
    rw [step_of_next hf hi hs.cancelled]
    exact ih _ (hs.setFrames _)
  | @assign i path σ x e v ha hv =>
    intro s hs
    rw [execute, perform_assign _ ha, hs.enter_environment, hv]
    exact .of_shows ((hs.enter i path).assign x v) (enter_frames i path)
  | assign_fails ha hv =>
    intro s hs
    rw [execute, perform_assign _ ha, hs.enter_environment, hv]
    exact .stopped
  | @display i path σ e v ha hv =>
    intro s hs
    rw [execute, perform_display _ ha, hs.enter_environment, hv]
    exact .of_shows ((hs.enter i path).emit _) (enter_frames i path)
  | display_fails ha hv =>
    intro s hs
    rw [execute, perform_display _ ha, hs.enter_environment, hv]
    exact .stopped
  | @input i path σ x raw rest ha hin =>
    intro s hs
    rw [execute, perform_input _ ha, hin]
    have he := (((hs.enter i path).emit (.inputRequested x)).setInputs rest).assign x (.ofInput raw)
    exact ⟨_, he.setReady, enter_frames i path, fun result h => .answered (answer_of_waiting raw rfl) h⟩
  | input_exhausted ha hin =>
    intro s hs
    rw [execute, perform_input _ ha, hin]
    exact .exhausted
  | @branch_then i path σ σ' c body otherwise r ha hc _ ih =>
    intro s hs
    rw [execute, perform_branch _ ha, hs.enter_environment, hc]
    have hr := RunsTask.push (hs.enter i path) (f := ⟨body, 0, path, 0, none⟩) rfl ih
    exact enter_frames (s := s) i path ▸ hr.pop rfl
  | @branch_else i path σ σ' c body otherwise r ha hc hr ih =>
    intro s hs
    rw [execute, perform_branch _ ha, hs.enter_environment, hc]
    obtain ⟨-, -, -, ho⟩ := Instruction.action?_eq_branch.mp ha
    cases hi : i.otherwise with
    | none =>
      rw [hi, Option.getD_none] at ho
      subst ho
      cases hr
      exact .of_shows (hs.enter i path) (enter_frames i path)
    | some o =>
      rw [hi, Option.getD_some] at ho
      subst ho
      have hr := RunsTask.push (hs.enter i path) (f := ⟨o, 0, path, body.length, none⟩) rfl ih
      exact enter_frames (s := s) i path ▸ hr.pop rfl
  | branch_fails ha hc =>
    intro s hs
    rw [execute, perform_branch _ ha, hs.enter_environment, hc]
    exact .stopped
  | @loop_again i path σ σ' σ'' c body r ha hc _ _ ih ih' =>
    intro s hs
    rw [execute, perform_loop _ ha, hs.enter_environment, hc]
    have hr := RunsTask.push (hs.enter i path) (f := ⟨body, 0, path, 0, some i⟩) rfl ih
    refine hr.trans fun t ht hft => .of_step ?_
    rw [step_of_again hft (List.getElem?_eq_none (Nat.le_refl _)) rfl ht.cancelled]
    exact enter_frames (s := s) i path ▸ ih' _ (ht.setFrames _)
  | @loop_halt i path σ σ' c body e ha hc _ ih =>
    intro s hs
    rw [execute, perform_loop _ ha, hs.enter_environment, hc]
    exact RunsTask.push (hs.enter i path) (f := ⟨body, 0, path, 0, some i⟩) rfl ih
  | @loop_done i path σ c body ha hc =>
    intro s hs
    rw [execute, perform_loop _ ha, hs.enter_environment, hc]
    exact .of_shows (hs.enter i path) (enter_frames i path)
  | loop_fails ha hc =>
    intro s hs
    rw [execute, perform_loop _ ha, hs.enter_environment, hc]
    exact .stopped

end Session
end Pseudocode
