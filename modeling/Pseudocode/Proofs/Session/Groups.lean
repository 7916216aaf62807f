import Mathlib.Data.List.SplitBy
import Pseudocode.Proofs.Program.Targets
import Pseudocode.Proofs.Session.Turns

/-! # Groups of events

A session reports in groups: first the directives for the whole program, and then, for each instruction
that it enters, the directives aimed at it, its entry, and what it does. A turn reports one of these
groups or nothing.
-/

namespace Pseudocode

namespace Event

def isAimed : Event → Bool
  | .styled d => !d.isGlobal
  | _ => false

/-- Whether the second event, if it comes right after the first one, is in the same group. -/
def continues : Event → Event → Bool
  | .styled d, .styled d' => d.isGlobal == d'.isGlobal
  | _, .styled _ => false
  | e, .entered _ => e.isAimed
  | _, .displayed _ | _, .inputRequested _ | _, .assigned _ _ => true

def groups (es : List Event) : List (List Event) :=
  es.splitBy continues

def entered? : Event → Option Path
  | .entered path => some path
  | _ => none

/-- What the instruction at `path` reports after its entry, by the outcome of its turn. -/
inductive Reports (path : Path) : Outcome → List Event → Prop where
  | nothing : Reports path .running []
  | displayed (v : Value) : Reports path .running [.displayed v]
  | assigned (x : String) (v : Value) : Reports path .running [.assigned x v]
  | answered (x : String) (v : Value) : Reports path .running [.inputRequested x, .assigned x v]
  | unanswered (x : String) : Reports path (.stopped (.inputExhausted x)) [.inputRequested x]
  | failed (line : Nat) (e : EvalError) : Reports path (.stopped (.failed path line e)) []

inductive IsEntry (path : Path) (o : Outcome) : List Event → Prop where
  | mk {ds : List Directive} {reports : List Event} :
    (∀ d ∈ ds, d.isGlobal = false) → Reports path o reports →
      IsEntry path o (ds.map .styled ++ .entered path :: reports)

/-- Another group can follow the events. -/
def Settled (es : List Event) : Prop :=
  ∀ e ∈ es.getLast?, e.isAimed = false

variable {path : Path} {o : Outcome} {ds : List Directive} {g es es' : List Event} {b : Bool}

theorem isChain_styled (h : ∀ d ∈ ds, d.isGlobal = b) :
    (ds.map styled).IsChain (continues · ·) := by
  refine (List.pairwise_map.mpr (List.pairwise_of_forall_mem_list ?_)).isChain
  intro d hd d' hd'
  simp [continues, h d hd, h d' hd']

theorem Reports.isChain (h : Reports path o g) :
    (.entered path :: g).IsChain (continues · ·) := by
  cases h <;> simp [continues]

theorem Reports.settled (h : Reports path o g) (es : List Event) :
    Settled (es ++ .entered path :: g) := by
  cases h <;> simp [Settled, isAimed]

namespace IsEntry

theorem ne_nil (h : IsEntry path o g) : g ≠ [] := by
  cases h
  simp

theorem isChain (h : IsEntry path o g) : g.IsChain (continues · ·) := by
  obtain ⟨hds, hr⟩ := h
  refine List.isChain_append.mpr ⟨isChain_styled hds, hr.isChain, ?_⟩
  intro e he e' he'
  obtain ⟨d, hd, rfl⟩ := List.mem_map.mp (List.mem_of_mem_getLast? he)
  obtain rfl := Option.mem_some_iff.mp he'
  simp [continues, isAimed, hds d hd]

theorem groups_eq (h : IsEntry path o g) : groups g = [g] :=
  List.splitBy_of_isChain h.ne_nil h.isChain

theorem settled (h : IsEntry path o g) (es : List Event) : Settled (es ++ g) := by
  obtain ⟨_, hr⟩ := h
  rw [← List.append_assoc]
  exact hr.settled _

theorem findSome?_append (h : IsEntry path o g) (es : List Event) :
    (g ++ es).findSome? entered? = some path := by
  obtain @⟨ds, reports, -, -⟩ := h
  have hds : (ds.map styled).findSome? entered? = none := by
    simp [List.findSome?_eq_none_iff, entered?]
  rw [List.append_assoc, List.findSome?_append, hds]
  rfl

theorem groups_append (h : IsEntry path o g) (hs : Settled es) (es' : List Event) :
    groups (es ++ (g ++ es')) = groups es ++ groups (g ++ es') := by
  refine List.splitBy_append fun e he e' he' => ?_
  have haimed := hs e he
  obtain @⟨ds, reports, hds, -⟩ := h
  cases ds with
  | nil =>
    obtain rfl := Option.mem_some_iff.mp he'
    cases e <;> simpa [continues] using haimed
  | cons d ds =>
    obtain rfl := Option.mem_some_iff.mp he'
    have hd : d.isGlobal = false := hds d List.mem_cons_self
    cases e <;> simp_all [continues, isAimed]

end IsEntry
end Event

namespace Session

open Event

variable {s t u : Session} {inputs rest : List String} {o : Outcome} {i : Instruction} {path : Path}
  {f : Frame} {fs : List Frame}

theorem emitAll_events (s : Session) (es : List Event) :
    (s.emitAll es).events.toList = s.events.toList ++ es := by
  induction es generalizing s with
  | nil => exact (List.append_nil _).symm
  | cons e es ih =>
    rw [show s.emitAll (e :: es) = (s.emit e).emitAll es from rfl, ih, emit_events,
      List.append_assoc, List.singleton_append]

theorem enter_events (s : Session) (i : Instruction) (path : Path) :
    ∃ ds : List Directive, (∀ d ∈ ds, d.isGlobal = false) ∧
      (s.enter i path).events.toList = s.events.toList ++ (ds.map .styled ++ [.entered path]) := by
  refine ⟨(s.program.aimedAt path).filter (·.kind.appliesTo i.kind), fun d hd => ?_, ?_⟩
  · exact Program.isGlobal_of_mem_aimedAt (List.mem_of_mem_filter hd)
  · simp only [enter, emit_events, emitAll_events, List.append_assoc]

theorem assign_events (s : Session) (x : String) (v : Value) :
    (s.assign x v).events.toList = s.events.toList ++ [.assigned x v] :=
  emit_events _

theorem Performs.reports (hp : Performs u i path s.step.1 s.step.2) (ht : Turn s inputs o t rest) :
    ∃ reports, Reports path o reports ∧ t.events.toList = u.events.toList ++ reports := by
  cases ht with
  | step hst =>
    rw [hst] at hp
    cases hp with
    | assign _ _ => exact ⟨_, .assigned _ _, emit_events _⟩
    | display _ _ => exact ⟨_, .displayed _, emit_events _⟩
    | descend _ => exact ⟨[], .nothing, (List.append_nil _).symm⟩
    | skip _ => exact ⟨[], .nothing, (List.append_nil _).symm⟩
  | @answer x raw _ _ _ hst ha =>
    rw [hst] at hp
    cases hp
    obtain ⟨-, rfl⟩ := answer_eq_ok_iff.mp ha
    refine ⟨_, .answered i.argument (.ofInput raw), (assign_events _ _ _).trans ?_⟩
    rw [emit_events, List.append_assoc]
    rfl
  | exhaust hst =>
    rw [hst] at hp
    cases hp
    exact ⟨_, .unanswered _, emit_events _⟩
  | finish hst =>
    rw [hst] at hp
    cases hp
  | stop hst =>
    rw [hst] at hp
    cases hp
    exact ⟨[], .failed _ _, (List.append_nil _).symm⟩

theorem Live.turn_enter (h : s.Live) (hc : s.cancelled = false) (hf : s.frames = f :: fs)
    (he : f.upcoming? = some (i, path)) (ht : Turn s inputs o t rest) :
    ∃ g, IsEntry path o g ∧ t.events.toList = s.events.toList ++ g := by
  have hi : i.Complete := (h.complete f (by simp [hf])).of_upcoming? he
  have hp := performs_of_action? ({ s with frames := f.advance ++ fs }.enter i path) path hi.action
  rw [show Session.perform _ i path = s.step from (step_of_entry hf he hc).symm] at hp
  obtain ⟨reports, hr, hreports⟩ := hp.reports ht
  obtain ⟨ds, hds, henter⟩ := enter_events { s with frames := f.advance ++ fs } i path
  refine ⟨_, .mk hds hr, ?_⟩
  rw [hreports, henter]
  simp

/-- A turn reports the group of the instruction that it enters, or nothing. -/
theorem Live.turn_events (h : s.Live) (hc : s.cancelled = false) (ht : Turn s inputs o t rest) :
    t.events = s.events ∨
      ∃ path g, IsEntry path o g ∧ t.events.toList = s.events.toList ++ g := by
  cases hf : s.frames with
  | nil =>
    obtain ⟨rfl, rfl, -⟩ := ht.unique (.finish (step_of_nil hf))
    exact .inl rfl
  | cons f fs =>
    cases he : f.upcoming? with
    | none =>
      obtain ⟨rfl, rfl, -⟩ := ht.unique (.step (step_of_leave hf he))
      exact .inl rfl
    | some q => exact .inr ⟨q.2, h.turn_enter hc hf he ht⟩

theorem Live.turn_settled (h : s.Live) (hc : s.cancelled = false) (ht : Turn s inputs o t rest)
    (hs : Settled s.events.toList) : Settled t.events.toList := by
  rcases h.turn_events hc ht with heq | ⟨path, g, hg, heq⟩
  · rwa [heq]
  · rw [heq]
    exact hg.settled _

end Session
end Pseudocode
