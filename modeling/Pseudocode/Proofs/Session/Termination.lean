import Pseudocode.Proofs.Session.Order

/-! # How long a session goes on

A step enters an instruction, leaves a sequence, or is the last one. So without loops a session makes no more
steps than there are instructions and blocks, and one or two more: what it has left to enter and to leave gets
less with each.
-/

namespace Pseudocode

namespace Instruction

def blockCount (i : Instruction) : Nat :=
  i.body.toList.length + i.otherwise.toList.length

mutual

def extent : Instruction → Nat
  | ⟨_, _, _, _, body, otherwise, _⟩ => 1 + blockExtent body + blockExtent otherwise

def blockExtent : Option (List Instruction) → Nat
  | none => 0
  | some is => 1 + sequenceExtent is

def sequenceExtent : List Instruction → Nat
  | [] => 0
  | i :: is => i.extent + sequenceExtent is

end

theorem extent_eq (i : Instruction) : i.extent = 1 + blockExtent i.body + blockExtent i.otherwise := by
  cases i
  rw [extent]

def listedBlocks (es : List (Path × Instruction)) : Nat :=
  (es.map fun e => e.2.blockCount).sum

theorem listedBlocks_append (as bs : List (Path × Instruction)) :
    listedBlocks (as ++ bs) = listedBlocks as + listedBlocks bs := by
  rw [listedBlocks, List.map_append, List.sum_append]
  rfl

theorem listedBlocks_cons (e : Path × Instruction) (es : List (Path × Instruction)) :
    listedBlocks (e :: es) = e.2.blockCount + listedBlocks es := by
  rw [listedBlocks, List.map_cons, List.sum_cons]
  rfl

mutual

theorem extent_eq_listed (path : Path) : ∀ i : Instruction,
    i.extent = 1 + i.blockCount + (i.listingBelow path).length + listedBlocks (i.listingBelow path)
  | ⟨_, _, _, _, body, otherwise, _⟩ => by
    rw [extent, listingBelow, List.length_append, listedBlocks_append, blockCount,
      blockExtent_eq_listed path 1 body,
      blockExtent_eq_listed path ((body.getD []).length + 1) otherwise]
    dsimp only
    omega

theorem blockExtent_eq_listed (path : Path) (n : Nat) : ∀ b : Option (List Instruction),
    blockExtent b =
      b.toList.length + (listingBlock path n b).length + listedBlocks (listingBlock path n b)
  | none => rfl
  | some is => by
    rw [blockExtent, listingBlock, sequenceExtent_eq_listed path n is, Option.toList_some,
      List.length_singleton]
    omega

theorem sequenceExtent_eq_listed (path : Path) (n : Nat) : ∀ is : List Instruction,
    sequenceExtent is = (listingFrom path n is).length + listedBlocks (listingFrom path n is)
  | [] => rfl
  | i :: is => by
    rw [sequenceExtent, listingFrom, List.length_append, List.length_cons, List.cons_append,
      listedBlocks_cons, listedBlocks_append, extent_eq_listed (path.child n) i,
      sequenceExtent_eq_listed path (n + 1) is]
    dsimp only
    omega

end

end Instruction

namespace Program

def instructionCount (p : Program) : Nat :=
  (Instruction.listing p.instructions).length

def blockCount (p : Program) : Nat :=
  Instruction.listedBlocks (Instruction.listing p.instructions)

theorem sequenceExtent_eq (p : Program) :
    Instruction.sequenceExtent p.instructions = p.instructionCount + p.blockCount :=
  Instruction.sequenceExtent_eq_listed .root 1 p.instructions

end Program

namespace Frame

/-- How many instructions there are left to enter and blocks to leave until the sequence is done, the
sequence itself included. -/
def extent (f : Frame) : Nat :=
  1 + Instruction.sequenceExtent (f.instructions.drop f.next)

variable {f g : Frame} {i : Instruction} {path : Path}

theorem extent_pos (f : Frame) : 0 < f.extent :=
  Nat.lt_add_right _ Nat.one_pos

/-- Entering an instruction takes all inside it from what is left of a sequence that is not a loop's. -/
theorem extent_of_upcoming? (he : f.upcoming? = some (i, path)) (hl : f.loop = none) :
    f.extent = i.extent + (f.advance.map extent).sum := by
  obtain ⟨hi, -, hadvance⟩ | ⟨-, hloop, -, -⟩ := upcoming?_cases he
  · obtain ⟨hlt, rfl⟩ := List.getElem?_eq_some_iff.mp hi
    rw [hadvance, List.map_singleton, List.sum_singleton, extent, extent,
      List.drop_eq_getElem_cons hlt, Instruction.sequenceExtent]
    dsimp only
    omega
  · rw [hl] at hloop
    cases hloop

theorem Opens.extent_lt (hg : g.Opens i path) : g.extent < i.extent := by
  rw [i.extent_eq, extent]
  cases hg with
  | body _ hb | loop _ hb =>
    rw [hb, Instruction.blockExtent, List.drop_zero]
    dsimp only
    omega
  | otherwise _ _ ho =>
    rw [ho, Instruction.blockExtent, List.drop_zero]
    dsimp only
    omega

end Frame

namespace Session

variable {s t : Session} {p : Program} {o : Outcome} {fuel : Nat} {i : Instruction} {path : Path}

/-! ## Steps that are made -/

def stepsMade : (fuel : Nat) → Session → Nat
  | 0, _ => 0
  | fuel + 1, s =>
    match s.step with
    | (.running, s) => stepsMade fuel s + 1
    | _ => 1

def stepsOfCall (s : Session) : Call → Nat
  | .run fuel =>
    match s.state with
    | .ready => stepsMade fuel s.begin
    | _ => 0
  | .answer _ _ | .cancel => 0

def stepsOfCalls (s : Session) : List Call → Nat
  | [] => 0
  | c :: calls => s.stepsOfCall c + (s.call c).2.stepsOfCalls calls

theorem Refuses.stepsOfCall {c : Call} {e : RunError} (h : s.Refuses c e) : s.stepsOfCall c = 0 := by
  cases h with
  | awaiting hw => simp only [Session.stepsOfCall, hw]
  | notRunnable ho => cases hs : s.state <;> simp_all [Session.stepsOfCall, State.isOver]
  | notWaiting _ | unexpected _ _ => rfl

/-! ## What is left to do -/

def extent (s : Session) : Nat :=
  (s.frames.map Frame.extent).sum

/-- How many steps a session can make at most, if it never goes back: a last one finishes it. -/
def budget (s : Session) : Nat :=
  if s.state.isOver then 0 else s.extent + 1

theorem extent_of_frames {f : Frame} {fs : List Frame} (hf : s.frames = f :: fs) :
    s.extent = f.extent + (fs.map Frame.extent).sum := by
  rw [extent, hf, List.map_cons, List.sum_cons]

theorem Performs.extent_le (h : Performs s i path o t) : t.extent < s.extent + i.extent := by
  rcases h.frames with hframes | ⟨g, hg, hframes⟩
  · rw [extent, extent, hframes, i.extent_eq]
    omega
  · have hlt := hg.extent_lt
    rw [extent_of_frames hframes, extent]
    omega

/-- After a step that ends nothing there is less left to do, if nothing on the stack is a loop's. -/
theorem Moves.extent_lt (h : Moves s o t) (hloop : ∀ f ∈ s.frames, f.loop = none)
    (ho : ∀ e, o ≠ .stopped e) (hfinished : o ≠ .finished) : t.extent < s.extent := by
  cases h with
  | finish _ => exact absurd rfl hfinished
  | cancel _ _ _ _ => exact absurd rfl (ho _)
  | @leave f fs hf _ =>
    have hpos := f.extent_pos
    rw [extent_of_frames hf]
    show (fs.map Frame.extent).sum < _
    omega
  | @enter f fs i path _ _ hf he _ hp =>
    -- The instruction is taken from its sequence with all inside it, of which one block comes back at most.
    have hlt := hp.extent_le
    have hf' := Frame.extent_of_upcoming? he (hloop f (hf ▸ List.mem_cons_self))
    have hrest : ({ s with frames := f.advance ++ fs }.enter i path).extent =
        (f.advance.map Frame.extent).sum + (fs.map Frame.extent).sum := by
      rw [extent, enter_frames, List.map_append, List.sum_append]
    rw [extent_of_frames hf]
    omega

theorem Live.budget_eq (h : s.Live) : s.budget = s.extent + 1 := by
  rw [budget, h.state]
  rfl

/-- A step takes at least one from what can be done, and all if it is the last one. -/
theorem Live.stepped_budget (h : s.Live) (ho : s.Ordered p) (hp : p.LoopFree) :
    s.stepped.budget < s.budget := by
  have hm := step_moves h.complete
  have hlt := hm.extent_lt fun f hf => ho.loop_eq_none hp hf
  rw [h.budget_eq, budget, stepped_state]
  cases hst : s.step.1 with
  | running | waiting x =>
    rw [hst] at hlt
    exact Nat.succ_lt_succ (hlt nofun nofun)
  | finished => exact Nat.succ_pos _
  | stopped e =>
    rw [hst] at hm
    rcases hm.error with ⟨_, rfl⟩ | ⟨_, _, _, rfl⟩ <;> exact Nat.succ_pos _

theorem stepsMade_of_running (hst : s.step = (.running, t)) (fuel : Nat) :
    s.stepsMade (fuel + 1) = t.stepsMade fuel + 1 := by
  rw [stepsMade, hst]

theorem stepsMade_of_last (hr : s.step.1 ≠ .running) (fuel : Nat) : s.stepsMade (fuel + 1) = 1 := by
  rw [stepsMade]
  split
  case h_1 t hst => exact absurd (congrArg Prod.fst hst) hr
  case h_2 => rfl

theorem Live.step_eq (h : s.Live) (hr : s.step.1 = .running) : s.step = (.running, s.stepped) := by
  rw [h.stepped_eq (by simp [hr]), ← hr]

theorem Ordered.stepped (ho : s.Ordered p) : s.stepped.Ordered p :=
  (invariant_ordered p).state _ ((invariant_ordered p).step ho)

theorem Live.stepsMade_add_budget (h : s.Live) (ho : s.Ordered p) (hp : p.LoopFree) (fuel : Nat) :
    s.stepsMade fuel + (s.steps fuel).2.budget ≤ s.budget := by
  induction fuel generalizing s with
  | zero =>
    rw [stepsMade, Session.steps, Nat.zero_add]
  | succ fuel ih =>
    have hlt := h.stepped_budget ho hp
    by_cases hr : s.step.1 = .running
    · have hst := h.step_eq hr
      have hle := ih (h.turn (h.turn_stepped hr [])) ho.stepped
      rw [steps_of_running hst, stepsMade_of_running hst]
      omega
    · rw [h.steps_succ hr, stepsMade_of_last hr]
      dsimp only
      omega

theorem Live.stepsMade_of_unfinished (h : s.Live) (hr : (s.steps fuel).1 = .running) :
    s.stepsMade fuel = fuel ∧ (s.steps fuel).2.Live := by
  induction fuel generalizing s with
  | zero => exact ⟨rfl, h⟩
  | succ fuel ih =>
    by_cases hlast : s.step.1 = .running
    · have hst := h.step_eq hlast
      rw [steps_of_running hst] at hr ⊢
      obtain ⟨hmade, hlive⟩ := ih (h.turn (h.turn_stepped hlast [])) hr
      exact ⟨by rw [stepsMade_of_running hst, hmade], hlive⟩
    · rw [h.steps_succ hlast] at hr
      exact absurd hr hlast

/-! ## Calls -/

theorem budget_congr (hstate : t.state.isOver = s.state.isOver) (hframes : t.frames = s.frames) :
    t.budget = s.budget := by
  rw [budget, budget, extent, extent, hstate, hframes]

theorem begin_state (s : Session) : s.begin.state = s.state :=
  begin_keeps (f := Session.state) (fun _ _ => rfl) rfl

theorem Ordered.stepsOfCall_add_budget (ho : s.Ordered p) (hp : p.LoopFree) (c : Call) :
    s.stepsOfCall c + (s.call c).2.budget ≤ s.budget := by
  rcases s.accepts_or_refuses c with ha | ⟨e, hr⟩
  · cases ha with
    | run fuel hready =>
      have hle := (live_begin_of_ready hready ho.complete).stepsMade_add_budget
        ((invariant_ordered p).begin ho) hp fuel
      rw [budget_congr (congrArg State.isOver s.begin_state) s.begin_frames] at hle
      rw [Session.call, run_of_ready hready, stepsOfCall, hready]
      exact hle
    | answer raw hw =>
      rw [Session.call, answer_of_waiting raw hw, stepsOfCall, Nat.zero_add]
      exact Nat.le_of_eq (budget_congr (by rw [hw]; rfl) rfl)
    | cancel =>
      rw [stepsOfCall, Nat.zero_add]
      exact Nat.le_of_eq (budget_congr rfl rfl)
  · rw [hr.call, hr.stepsOfCall, Nat.zero_add]

theorem Ordered.stepsOfCalls_add_budget (ho : s.Ordered p) (hp : p.LoopFree) (calls : List Call) :
    s.stepsOfCalls calls + (s.after calls).budget ≤ s.budget := by
  induction calls generalizing s with
  | nil => rw [stepsOfCalls, after, Nat.zero_add]
  | cons c calls ih =>
    have hcall := ho.stepsOfCall_add_budget hp c
    have hrest := ih ((invariant_ordered p).call ho c)
    rw [stepsOfCalls, after]
    omega

theorem budget_start (p : Program) (cancelAt : Option Nat) :
    (start p cancelAt).budget = p.instructionCount + p.blockCount + 2 := by
  have hextent : (start p cancelAt).extent = 1 + (p.instructionCount + p.blockCount) := by
    rw [extent_of_frames rfl, Frame.extent, List.drop_zero, ← p.sequenceExtent_eq]
    rfl
  rw [budget, hextent]
  show _ + 1 = _
  omega

theorem Ordered.run_ne_running (ho : s.Ordered p) (hp : p.LoopFree) (hfuel : s.budget ≤ fuel) :
    (s.run fuel).1 ≠ .running := by
  intro hr
  cases hready : s.state with
  | ready =>
    have hlive := live_begin_of_ready hready ho.complete
    rw [run_of_ready hready] at hr
    obtain ⟨hmade, hrest⟩ := hlive.stepsMade_of_unfinished hr
    have hle := hlive.stepsMade_add_budget ((invariant_ordered p).begin ho) hp fuel
    rw [budget_congr (congrArg State.isOver s.begin_state) s.begin_frames, hmade, hrest.budget_eq] at hle
    omega
  | _ =>
    rw [Session.run, hready] at hr
    cases hr

end Session

namespace Program

/-- From one entry to the next control goes on in the program, or it goes back to a loop that it is inside. So
without loops each instruction is entered once at most, in the order of the paths, and every run comes to an
end: in all its calls together a session makes at most one step for each instruction and each block, and two
more. -/
theorem entries_follow (p : Program) (cancelAt : Option Nat) (calls : List Call) :
    ((Session.start p cancelAt).after calls).enteredPaths.IsChain p.Follows ∧
      (p.LoopFree →
        ((Session.start p cancelAt).after calls).enteredPaths.Pairwise (· < ·) ∧
          (Session.start p cancelAt).stepsOfCalls calls ≤ p.instructionCount + p.blockCount + 2 ∧
          ∀ fuel ≥ p.instructionCount + p.blockCount + 2,
            (((Session.start p cancelAt).after calls).run fuel).1 ≠ .running) := by
  have ho := Session.ordered_after p cancelAt calls
  refine ⟨ho.follows, fun hp => ⟨ho.pairwise hp, ?_⟩⟩
  have hle := (Session.ordered_start p cancelAt).stepsOfCalls_add_budget hp calls
  rw [Session.budget_start] at hle
  refine ⟨by omega, fun fuel hfuel => ho.run_ne_running hp ?_⟩
  omega

theorem entries_follow_branch : ∃ p : Program, p.LoopFree ∧ p.instructionCount = 4 ∧ p.blockCount = 2 ∧
    ((Session.start p none).after [.run 2, .run 9]).enteredPaths = [⟨[1]⟩, ⟨[1, 2]⟩, ⟨[2]⟩] ∧
      ((Session.start p none).after [.run 2, .run 9]).enteredPaths.Pairwise (· < ·) ∧
      (Session.start p none).stepsOfCalls [.run 2, .run 9] ≤ 8 ∧
      ∀ fuel ≥ 8, (((Session.start p none).after [.run 2]).run fuel).1 ≠ .running := by
  let p : Program := ⟨[.branch (.literal (.boolean false)) [.display (.literal (.integer 1)) 2]
    (some [.display (.literal (.integer 2)) 4]) 1, .display (.literal (.integer 3)) 6], [], [],
    by decide +kernel, rfl⟩
  have hfree : p.LoopFree := by decide +kernel
  have hentered : ((Session.start p none).after [.run 2, .run 9]).enteredPaths =
      [⟨[1]⟩, ⟨[1, 2]⟩, ⟨[2]⟩] := by
    decide +kernel
  obtain ⟨-, hwithout⟩ := entries_follow p none [.run 2, .run 9]
  obtain ⟨hpairwise, hsteps, -⟩ := hwithout hfree
  obtain ⟨-, -, hrun⟩ := (entries_follow p none [.run 2]).2 hfree
  exact ⟨p, hfree, rfl, rfl, hentered, hpairwise, hsteps, hrun⟩

end Program
end Pseudocode
