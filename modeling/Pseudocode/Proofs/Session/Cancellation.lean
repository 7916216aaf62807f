import Pseudocode.Proofs.Session.Groups

/-! # Cancellation

A session that is cancelled upon an event goes on as if nothing had happened to the end of the group of
that event. Then it stops before the instruction that it would have entered next, unless there is none
or the group has ended it.
-/

namespace Pseudocode
namespace Session

open Event

variable {s t u v : Session} {inputs rest rest' : List String} {o : Outcome} {c : Option Nat}
  {i : Instruction} {path : Path} {n k : Nat} {p : Program}

/-! ## Sessions that are going to be cancelled -/

/-- The session, if it is to be cancelled upon the event with the number `c`, and by nothing else. -/
def armed (s : Session) (c : Option Nat) : Session :=
  { s with cancelAt := c, cancelled := c.any (· ≤ s.events.size) }

theorem emit_armed (s : Session) (c : Option Nat) (e : Event) :
    (s.armed c).emit e = (s.emit e).armed c := by
  have hcancelled : (c.any (· ≤ s.events.size) || c == some (s.events.size + 1)) =
      c.any (· ≤ s.events.size + 1) := by
    cases c with
    | none => rfl
    | some k =>
      rw [Bool.eq_iff_iff]
      simp [Nat.le_succ_iff]
  simp only [emit, armed, Array.size_push, hcancelled]

theorem emitAll_armed (s : Session) (c : Option Nat) (es : List Event) :
    (s.armed c).emitAll es = (s.emitAll es).armed c := by
  induction es generalizing s with
  | nil => rfl
  | cons e es ih =>
    have hs := ih (s.emit e)
    rw [← emit_armed] at hs
    exact hs

theorem assign_armed (s : Session) (c : Option Nat) (x : String) (v : Value) :
    (s.armed c).assign x v = (s.assign x v).armed c :=
  emit_armed { s with environment := s.environment.insert x v } c _

theorem enter_armed (s : Session) (c : Option Nat) (i : Instruction) (path : Path) :
    (s.armed c).enter i path = (s.enter i path).armed c := by
  unfold enter
  simp only
  rw [emitAll_armed, ← emit_armed]
  rfl

theorem perform_armed (s : Session) (c : Option Nat) (i : Instruction) (path : Path) :
    (s.armed c).perform i path = ((s.perform i path).1, (s.perform i path).2.armed c) := by
  refine perform_map (·.armed c) s i path rfl (s.assign_armed c)
    (fun _ => s.emit_armed c _) (fun x => ?_) (fun _ => rfl)
  simp only [emit_armed]
  rfl

theorem step_armed (hs : s.cancelled = false) (hc : (s.armed c).cancelled = false) :
    (s.armed c).step = (s.step.1, s.step.2.armed c) := by
  cases hf : s.frames with
  | nil =>
    rw [step_of_nil hf, step_of_nil (s := s.armed c) hf]
    rfl
  | cons f fs =>
    cases he : f.upcoming? with
    | none =>
      rw [step_of_leave hf he, step_of_leave (s := s.armed c) hf he]
      rfl
    | some q =>
      obtain ⟨i, path⟩ := q
      rw [step_of_entry hf he hs, step_of_entry (s := s.armed c) hf he hc]
      rw [execute, execute, ← perform_armed, ← enter_armed]
      rfl

theorem answer_armed {x raw : String} (h : s.answer x raw = .ok t) :
    (s.armed c).answer x raw = .ok (t.armed c) := by
  obtain ⟨hw, rfl⟩ := answer_eq_ok_iff.mp h
  refine answer_eq_ok_iff.mpr ⟨hw, ?_⟩
  rw [assign_armed]
  rfl

/-- A session has the same turn whether it is going to be cancelled after it or not. -/
theorem Turn.armed (h : Turn s inputs o t rest) (hs : s.cancelled = false)
    (hc : (s.armed c).cancelled = false) : Turn (s.armed c) inputs o (t.armed c) rest := by
  have hstep := step_armed hs hc
  cases h with
  | step hst => exact .step (by rw [hstep, hst])
  | answer hst ha => exact .answer (by rw [hstep, hst]) (answer_armed ha)
  | exhaust hst => exact .exhaust (by rw [hstep, hst])
  | finish hst => exact .finish (by rw [hstep, hst])
  | stop hst => exact .stop (by rw [hstep, hst])

/-! ## Sessions that nothing cancels -/

/-- The session can go on, nothing is going to cancel it, and the last group of its events is
complete. -/
structure Undisturbed (s : Session) : Prop where
  live : s.Live
  armed_none : s.armed none = s
  settled : Settled s.events.toList

namespace Undisturbed

theorem cancelled (h : s.Undisturbed) : s.cancelled = false := by
  rw [← h.armed_none]
  rfl

theorem turn_events (h : s.Undisturbed) (ht : Turn s inputs o t rest) :
    t.events = s.events ∨
      ∃ path g, IsEntry path o g ∧ t.events.toList = s.events.toList ++ g :=
  h.live.turn_events h.cancelled ht

theorem turn (h : s.Undisturbed) (ht : Turn s inputs .running t rest) : t.Undisturbed := by
  have harmed : Turn (s.armed none) inputs .running (t.armed none) rest :=
    ht.armed h.cancelled rfl
  rw [h.armed_none] at harmed
  obtain ⟨-, heq, -⟩ := harmed.unique ht
  exact ⟨h.live.turn ht, heq, h.live.turn_settled h.cancelled ht h.settled⟩

theorem turns (h : s.Undisturbed) (ht : Turns n s inputs t rest) : t.Undisturbed := by
  induction ht with
  | refl s inputs => exact h
  | head hturn _ ih => exact ih (h.turn hturn)

theorem size_le_of_turn (h : s.Undisturbed) (ht : Turn s inputs o t rest) :
    s.events.size ≤ t.events.size := by
  rcases h.turn_events ht with heq | ⟨path, g, -, heq⟩
  · rw [heq]
  · rw [← Array.length_toList, ← Array.length_toList, heq, List.length_append]
    exact Nat.le_add_right _ _

theorem size_le_of_turns (h : s.Undisturbed) (ht : Turns n s inputs t rest) :
    s.events.size ≤ t.events.size := by
  induction ht with
  | refl s inputs => exact Nat.le_refl _
  | head hturn _ ih => exact Nat.le_trans (h.size_le_of_turn hturn) (ih (h.turn hturn))

theorem turns_armed (h : s.Undisturbed) (ht : Turns n s inputs t rest) (hk : t.events.size < k) :
    Turns n (s.armed k) inputs (t.armed k) rest := by
  induction ht with
  | refl s inputs => exact .refl _ inputs
  | @head n s t u inputs rest rest' hturn hturns ih =>
    have hlt : s.events.size < k :=
      Nat.lt_of_le_of_lt (h.size_le_of_turns (.head hturn hturns)) hk
    have harmed : Turn (s.armed k) inputs .running (t.armed k) rest :=
      hturn.armed h.cancelled (by simpa [armed] using hlt)
    exact .head harmed (ih (h.turn hturn) hk)

end Undisturbed

/-! ## The first turns -/

theorem Live.armed (h : s.Live) (c : Option Nat) : (s.armed c).Live :=
  ⟨h.state, h.started, h.complete⟩

theorem live_begin (p : Program) (c : Option Nat) : (start p c).begin.Live :=
  live_begin_of_ready rfl (complete_start p c)

theorem runWith_begin (p : Program) (c : Option Nat) (fuel : Nat) (inputs : List String) :
    (start p c).runWith fuel inputs = (start p c).begin.runWith fuel inputs :=
  runWith_congr ((live_begin p c).run fuel).symm

theorem begin_armed (s : Session) (c : Option Nat) : (s.armed c).begin = s.begin.armed c := by
  have hstarted : (s.armed c).started = s.started := rfl
  unfold begin
  rw [hstarted]
  split
  · rfl
  · exact emitAll_armed { s with started := true } c _

theorem start_armed (p : Program) (hk : 0 < k) : start p k = (start p none).armed k := by
  simp [start, armed, Nat.ne_of_gt hk]

theorem runWith_armed (p : Program) (hk : 0 < k) (fuel : Nat) (inputs : List String) :
    (start p k).runWith fuel inputs = ((start p none).begin.armed k).runWith fuel inputs := by
  rw [runWith_begin, start_armed p hk, begin_armed]

theorem begin_events (p : Program) :
    (start p none).begin.events.toList = p.globals.map .styled :=
  emitAll_events _ _

theorem undisturbed_begin (p : Program) : (start p none).begin.Undisturbed where
  live := live_begin p none
  armed_none := (begin_armed (start p none) none).symm
  settled := by
    intro e he
    rw [begin_events] at he
    obtain ⟨d, hd, rfl⟩ := List.mem_map.mp (List.mem_of_mem_getLast? he)
    simp [isAimed, Program.isGlobal_of_mem_globals hd]

/-- A session of the program that some of the answers are given to, and that is not cancelled, has
reported the events and has the variables at some time. -/
def Passes (p : Program) (inputs : List String) (events : Array Event) (env : Environment) : Prop :=
  ∃ calls, .cancel ∉ calls ∧ calls.filterMap Call.raw? <+: inputs ∧
    ((start p none).after calls).events = events ∧ ((start p none).after calls).environment = env

theorem passes_of_turns (h : Turns n (start p none).begin inputs t rest) :
    Passes p inputs t.events t.environment := by
  obtain ⟨calls, hcancel, hraw, rfl⟩ := (live_begin p none).calls_turns h
  exact ⟨.run 0 :: calls, by simp [hcancel], ⟨rest, hraw⟩, rfl, rfl⟩

theorem passes_of_turn (h : Turns n (start p none).begin inputs t rest)
    (ht : Turn t rest o u rest') : Passes p inputs u.events u.environment := by
  have hlive := live_begin p none
  obtain ⟨calls, hcancel, hraw, hafter⟩ := hlive.calls_turns h
  obtain ⟨calls', hcancel', hraw', rfl⟩ := (hlive.turns h).calls_turn ht
  rw [← hafter, ← after_append]
  refine ⟨.run 0 :: (calls ++ calls'), by simp [hcancel, hcancel'], ⟨rest', ?_⟩, rfl, rfl⟩
  rw [← hraw, ← hraw', ← List.append_assoc, ← List.filterMap_append]
  rfl

/-! ## The end of a group -/

/-- How a session ends that has been cancelled upon an event, where `full` is what the session gives
otherwise. -/
inductive CutOff (full cut : Outcome × Session) : Prop where
  /-- The instruction of the group fails by itself. -/
  | failed {path : Path} {line : Nat} {e : EvalError} :
    full.1 = .stopped (.failed path line e) → full.2.events = cut.2.events →
      cut.2.events.toList.getLast? = some (.entered path) →
      cut.1 = .stopped (.failed path line e) → cut.2.state = .failed → CutOff full cut
  /-- There is no answer to the input that the instruction of the group asks for. -/
  | unanswered {x : String} :
    full.1 = .stopped (.inputExhausted x) → full.2.events = cut.2.events →
      cut.2.events.toList.getLast? = some (.inputRequested x) →
      cut.1 = .stopped (.inputExhausted x) → cut.2.state = .waiting x → CutOff full cut
  /-- The instruction at `path` is the next one that is entered otherwise. -/
  | cancelled {path : Path} :
    (full.2.events.toList.drop cut.2.events.size).findSome? entered? = some path →
      cut.1 = .stopped (.cancelled path) → cut.2.state = .cancelled → CutOff full cut
  /-- No more instructions are entered. -/
  | finished :
    full.1 = .finished → full.2.events = cut.2.events →
      cut.1 = .finished → cut.2.state = .finished → CutOff full cut

/-- What a session gives that is cancelled upon its `k`-th event, where `full` is what it gives
otherwise with the same answers. -/
structure CleanCut (p : Program) (inputs : List String) (k : Nat) (full cut : Outcome × Session) :
    Prop where
  /-- Its events are those up to the end of the group of the `k`-th one. -/
  events : ∃ before g after, groups full.2.events.toList = before ++ g :: after ∧
    before.flatten.length < k ∧ k ≤ (before.flatten ++ g).length ∧
      cut.2.events.toList = before.flatten ++ g
  /-- Its variables are those that the session has otherwise after these events. -/
  environment : Passes p inputs cut.2.events cut.2.environment
  cutOff : CutOff full cut

def EndsGroup (s : Session) (k : Nat) : Prop :=
  ∃ before g, s.events.toList = before ++ g ∧ groups s.events.toList = groups before ++ [g] ∧
    before.length < k ∧ k ≤ s.events.size

theorem endsGroup_begin (hk : 0 < k) (h : k ≤ (start p none).begin.events.size) :
    (start p none).begin.EndsGroup k := by
  have hne : (start p none).begin.events.toList ≠ [] := by
    rw [← Array.length_toList] at h
    exact List.ne_nil_of_length_pos (Nat.lt_of_lt_of_le hk h)
  refine ⟨[], _, rfl, List.splitBy_of_isChain hne ?_, hk, h⟩
  rw [begin_events]
  exact isChain_styled fun d hd => Program.isGlobal_of_mem_globals hd

namespace Undisturbed

theorem endsGroup (h : s.Undisturbed) (ht : Turn s inputs o t rest) (hlt : s.events.size < k)
    (hk : k ≤ t.events.size) : t.EndsGroup k := by
  rcases h.turn_events ht with heq | ⟨path, g, hg, heq⟩
  · rw [heq] at hk
    omega
  · have hgroups := hg.groups_append h.settled []
    rw [List.append_nil, hg.groups_eq] at hgroups
    exact ⟨s.events.toList, g, heq, by rw [heq, hgroups], hlt, hk⟩

theorem cutOff_of_stop (h : s.Undisturbed) (ht : Turn s inputs o t rest) (ho : o ≠ .running)
    (hlt : s.events.size < t.events.size) (c : Option Nat) : CutOff (o, t) (o, t.armed c) := by
  have hstate : t.state = o.state := h.live.turn_state ht
  rcases h.turn_events ht with heq | ⟨path, g, ⟨_, hr⟩, heq⟩
  · rw [heq] at hlt
    exact absurd hlt (Nat.lt_irrefl _)
  · cases hr with
    | failed line e => exact .failed rfl rfl (by simp [armed, heq]) rfl hstate
    | unanswered x => exact .unanswered rfl rfl (by simp [armed, heq]) rfl hstate
    | _ => exact absurd rfl ho

end Undisturbed

theorem EndsGroup.events (h : s.EndsGroup k) {es : List Event} {after : List (List Event)}
    (hes : groups es = groups s.events.toList ++ after) :
    ∃ before g after, groups es = before ++ g :: after ∧ before.flatten.length < k ∧
      k ≤ (before.flatten ++ g).length ∧ s.events.toList = before.flatten ++ g := by
  obtain ⟨before, g, heq, hgroups, hlt, hk⟩ := h
  have hflatten : (groups before).flatten = before := List.flatten_splitBy _ _
  refine ⟨groups before, g, after, ?_, ?_, ?_, ?_⟩
  · rw [hes, hgroups, List.append_assoc, List.singleton_append]
  · rwa [hflatten]
  · rwa [hflatten, ← heq, Array.length_toList]
  · rw [hflatten, heq]

/-! ## Clean cuts -/

theorem Undisturbed.runWith_events {f : Frame} {fs : List Frame} (h : t.Undisturbed) (hs : s.Live)
    (hn : Turns n s inputs t rest) (hf : t.frames = f :: fs) (he : f.upcoming? = some (i, path))
    {fuel : Nat} (hfuel : n < fuel) :
    ∃ o g es, IsEntry path o g ∧
      (s.runWith fuel inputs).2.events.toList = t.events.toList ++ (g ++ es) := by
  obtain ⟨o, u, rest', hu⟩ := h.live.exists_turn rest
  obtain ⟨g, hg, hreports⟩ := h.live.turn_enter h.cancelled hf he hu
  obtain ⟨es, hes, -⟩ := hs.extends_runWith hn hu hfuel
  exact ⟨o, g, es, hg, by rw [hes, hreports, List.append_assoc]⟩

/-- A session that comes to the end of the group and has more to run is cut off where it would enter the
next instruction. -/
theorem Undisturbed.exists_cleanCut (h : t.Undisturbed) (hend : t.EndsGroup k)
    (hn : Turns n (start p none).begin inputs t rest)
    (hn' : Turns n ((start p none).begin.armed k) inputs (t.armed k) rest) :
    ∃ m, ∀ fuel ≥ m, CleanCut p inputs k ((start p none).begin.runWith fuel inputs)
      (((start p none).begin.armed k).runWith fuel inputs) := by
  have hlive := live_begin p none
  have hpasses : Passes p inputs t.events t.environment := passes_of_turns hn
  -- Both leave the sequences that are done, and only then does it matter that one is cancelled.
  obtain ⟨m, hm⟩ := turns_skip t rest
  obtain ⟨m', hm'⟩ := turns_skip (t.armed k) rest
  have hfull := hn.trans hm
  have hcut := hn'.trans hm'
  refine ⟨n + m + m' + 1, fun fuel hfuel => ?_⟩
  rcases skip_cases t with hf | ⟨f, fs, i, path, hf, he⟩
  · rw [hlive.runWith_of_stop hfull (.finish (step_of_nil hf)) nofun (by omega),
      (hlive.armed k).runWith_of_stop hcut (.finish (step_of_nil hf)) nofun (by omega)]
    exact ⟨hend.events (List.append_nil _).symm, hpasses, .finished rfl rfl rfl rfl⟩
  · have hcancelled : (t.skip.armed k).cancelled := by
      obtain ⟨_, _, -, -, -, hk⟩ := hend
      exact decide_eq_true hk
    obtain ⟨fs', -, hstep⟩ := step_of_cancelled (s := t.skip.armed k) hf he hcancelled
    rw [(hlive.armed k).runWith_of_stop hcut (.stop hstep) nofun (by omega)]
    obtain ⟨o, g, es, hg, hevents⟩ :=
      (h.turns hm).runWith_events hlive hfull hf he (show n + m < fuel by omega)
    have hnext : (((start p none).begin.runWith fuel inputs).2.events.toList.drop
        t.events.size).findSome? entered? = some path := by
      rw [hevents, show t.events.size = t.skip.events.toList.length from rfl, List.drop_left]
      exact hg.findSome?_append es
    have hgroups : groups ((start p none).begin.runWith fuel inputs).2.events.toList =
        groups t.events.toList ++ groups (g ++ es) := by
      rw [hevents]
      exact hg.groups_append h.settled es
    exact ⟨hend.events hgroups, hpasses, .cancelled hnext rfl rfl⟩

end Session

/-- A session that is cancelled upon its `k`-th event is cut off cleanly: it reports what it reports
otherwise, to the end of the group of that event. -/
theorem Program.cancel_cleanCut (p : Program) (inputs : List String) {k : Nat} (hk : 0 < k)
    (h : ∃ fuel, k ≤ ((Session.start p none).runWith fuel inputs).2.events.size) :
    ∃ n, ∀ fuel ≥ n, Session.CleanCut p inputs k ((Session.start p none).runWith fuel inputs)
      ((Session.start p (some k)).runWith fuel inputs) := by
  obtain ⟨fuel, hfuel⟩ := h
  have hlive := Session.live_begin p none
  have hs := Session.undisturbed_begin p
  simp only [Session.runWith_begin p none, Session.runWith_armed p hk] at hfuel ⊢
  by_cases hbegin : k ≤ (Session.start p none).begin.events.size
  · exact hs.exists_cleanCut (Session.endsGroup_begin hk hbegin) (.refl _ inputs) (.refl _ inputs)
  · rw [hlive.runWith] at hfuel
    obtain ⟨n, t, rest, o, u, rest', hn, hlt, hu, hreach⟩ :=
      hlive.exists_turn_reaching (Nat.not_le.mp hbegin) hfuel
    have ht := hs.turns hn
    have hn' := hs.turns_armed hn hlt
    have hu' := hu.armed (c := k) ht.cancelled (by simpa [Session.armed] using hlt)
    have hend := ht.endsGroup hu hlt hreach
    by_cases ho : o = .running
    · subst ho
      exact (ht.turn hu).exists_cleanCut hend (hn.trans hu.turns) (hn'.trans hu'.turns)
    · have hpasses : Session.Passes p inputs u.events u.environment := Session.passes_of_turn hn hu
      refine ⟨n + 1, fun fuel hf => ?_⟩
      rw [hlive.runWith_of_stop hn hu ho hf, (hlive.armed k).runWith_of_stop hn' hu' ho hf]
      exact ⟨hend.events (List.append_nil _).symm, hpasses,
        ht.cutOff_of_stop hu ho (Nat.lt_of_lt_of_le hlt hreach) k⟩

theorem Program.cancel_cleanCut_input : ∃ p : Program,
    p.instructions = [.input "x" 3,
      .loop (.literal (.boolean true)) [.assign "x" (.literal (.integer 1)) 5] 4] ∧
      p.directives = [⟨.style .font .mientras, .font "Arial", "", 1⟩,
        ⟨.style .color .mientras, .hexColor "HFF0000", "2", 2⟩] ∧
      0 < 3 ∧ (∃ fuel, 3 ≤ ((Session.start p none).runWith fuel ["5"]).2.events.size) ∧
      ∃ n, ∀ fuel ≥ n, Session.CleanCut p ["5"] 3 ((Session.start p none).runWith fuel ["5"])
        ((Session.start p (some 3)).runWith fuel ["5"]) := by
  refine ⟨⟨_, _, [none, some ⟨[2]⟩], ?_, checkDirectivesFrom_eq_ok_iff.mpr ⟨?_, ?_⟩⟩, rfl, rfl, by decide,
    ⟨1, ?_⟩, cancel_cleanCut _ _ (by decide) ⟨1, ?_⟩⟩
  all_goals decide +kernel

end Pseudocode
