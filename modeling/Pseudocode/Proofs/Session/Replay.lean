import Pseudocode.Proofs.Session.Calls

/-! # Replayed events

A session reports all that happens to its variables: whatever it is asked for, it goes on from where it
was by more events, and its variables are those that the assignments among its events set.
-/

namespace Pseudocode

def Environment.apply (env : Environment) : Event → Environment
  | .assigned name v => env.insert name v
  | .entered _ | .styled _ | .displayed _ | .inputRequested _ => env

def Environment.replay (env : Environment) (es : List Event) : Environment :=
  es.foldl Environment.apply env

theorem Environment.replay_append (env : Environment) (es es' : List Event) :
    env.replay (es ++ es') = (env.replay es).replay es' :=
  List.foldl_append

namespace Session

variable {s t u : Session} {i : Instruction} {path : Path} {o : Outcome}

/-- The second session has gone on from the first one by events that account for its variables. -/
def Extends (s t : Session) : Prop :=
  ∃ es, t.events.toList = s.events.toList ++ es ∧ t.environment = s.environment.replay es

namespace Extends

theorem refl (s : Session) : s.Extends s :=
  ⟨[], (List.append_nil _).symm, rfl⟩

theorem trans (h : s.Extends t) (h' : t.Extends u) : s.Extends u := by
  obtain ⟨es, hes, henv⟩ := h
  obtain ⟨es', hes', henv'⟩ := h'
  refine ⟨es ++ es', ?_, ?_⟩
  · rw [hes', hes, List.append_assoc]
  · rw [henv', henv, Environment.replay_append]

theorem of_eq (he : t.events = s.events) (henv : t.environment = s.environment) : s.Extends t :=
  ⟨[], by rw [he, List.append_nil], henv⟩

theorem environment_eq (h : s.Extends t)
    (hs : s.environment = Environment.replay .empty s.events.toList) :
    t.environment = Environment.replay .empty t.events.toList := by
  obtain ⟨es, hes, henv⟩ := h
  rw [hes, henv, hs, Environment.replay_append]

theorem emit {e : Event} (he : ∀ env : Environment, env.apply e = env) : s.Extends (s.emit e) :=
  ⟨[e], emit_events e, (he s.environment).symm⟩

theorem emitAll (s : Session) (ds : List Directive) : s.Extends (s.emitAll (ds.map .styled)) := by
  induction ds generalizing s with
  | nil => exact .refl s
  | cons d ds ih => exact (Extends.emit fun _ => rfl).trans (ih _)

theorem assign (s : Session) (name : String) (v : Value) : s.Extends (s.assign name v) :=
  ⟨[.assigned name v], emit_events _, rfl⟩

theorem enter (s : Session) (i : Instruction) (path : Path) : s.Extends (s.enter i path) :=
  (emitAll s _).trans (Extends.emit fun _ => rfl)

theorem begin (s : Session) : s.Extends s.begin := by
  unfold Session.begin
  split
  · exact .refl s
  · exact emitAll _ _

theorem of_performs (h : Performs s i path o t) : s.Extends t := by
  cases h with
  | assign _ _ => exact .assign s _ _
  | display _ _ => exact .emit fun _ => rfl
  | input _ => exact .emit fun _ => rfl
  | descend _ => exact .of_eq rfl rfl
  | skip _ => exact .refl s
  | fail _ => exact .refl s

theorem of_moves (h : Moves s o t) : s.Extends t := by
  cases h with
  | finish _ => exact .of_eq rfl rfl
  | leave _ _ => exact .of_eq rfl rfl
  | cancel _ _ _ _ => exact .of_eq rfl rfl
  | @enter f fs i path _ _ _ _ _ hp =>
    have hframes : s.Extends { s with frames := f.advance ++ fs } := .of_eq rfl rfl
    exact hframes.trans ((enter _ i path).trans (of_performs hp))

end Extends

theorem invariant_extends (s : Session) : Invariant fun t => t.Complete ∧ s.Extends t where
  begin h := ⟨invariant_complete.begin h.1, h.2.trans (.begin _)⟩
  step h := ⟨invariant_complete.step h.1, h.2.trans (.of_moves (step_moves h.1))⟩
  state _ h := ⟨h.1, h.2.trans (.of_eq rfl rfl)⟩
  assign name v h := ⟨h.1, h.2.trans (.assign _ name v)⟩
  cancel h := ⟨h.1, h.2.trans (.of_eq rfl rfl)⟩

end Session
end Pseudocode
