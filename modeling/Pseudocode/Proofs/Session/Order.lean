import Pseudocode.Proofs.Session.Current

/-! # The order of entries

From one entry to the next a session goes on in the program, or it goes back to a loop that it is inside.
The sequences on its stack are nested: each belongs to an instruction that all below it have passed, and
all have passed the one entered last. What comes next in a sequence is past that, and a loop whose body
is done has it inside.
-/

namespace Pseudocode

namespace Frame

variable {f g : Frame} {fs : List Frame} {r path : Path} {i : Instruction} {p : Program}

/-- The path leads through a position that the sequence has passed: of an instruction that it has
entered, or of one that is numbered before it. -/
def Passed (f : Frame) (r : Path) : Prop :=
  ∃ m ms, m ≤ f.offset + f.next ∧ r = f.path.descend (m :: ms)

namespace Passed

theorem child (h : f.Passed r) (n : Nat) : f.Passed (r.child n) := by
  obtain ⟨m, ms, hm, rfl⟩ := h
  refine ⟨m, ms ++ [n], hm, ?_⟩
  rw [Path.descend, Path.child, Path.descend, List.append_assoc, List.cons_append]

theorem lt_nextPath (h : f.Passed r) : r < f.nextPath := by
  obtain ⟨m, ms, hm, rfl⟩ := h
  exact Path.descend_lt_descend f.path (Nat.lt_succ_of_le hm) ms []

theorem path_prefix (h : f.Passed r) : f.path.positions <+: r.positions := by
  obtain ⟨m, ms, -, rfl⟩ := h
  exact List.prefix_append _ _

end Passed

theorem passed_nextPath (f : Frame) : { f with next := f.next + 1 }.Passed f.nextPath :=
  ⟨f.offset + f.next + 1, [], Nat.le_refl _, rfl⟩

/-- What the sequence goes back to when it is done, if to anything, is a loop. -/
def BodyOfLoop (f : Frame) : Prop :=
  ∀ i, f.loop = some i → i.kind = .loop

theorem BodyOfLoop.of_advance (h : f.BodyOfLoop) (hg : g ∈ f.advance) : g.BodyOfLoop := by
  obtain rfl := eq_of_mem_advance hg
  exact h

theorem BodyOfLoop.of_opens (hg : g.Opens i path) : g.BodyOfLoop := by
  cases hg with
  | body _ _ | otherwise _ _ _ => exact nofun
  | loop hk _ => exact fun j hj => Option.some.inj hj ▸ hk

/-- The sequences, the innermost one first, are nested, and the instruction entered last, at `r`, is inside
all of them. -/
structure Nested (fs : List Frame) (r : Path) : Prop where
  inside : fs.Pairwise fun f g => g.Passed f.path
  last : ∀ f ∈ fs, r = f.path ∨ f.Passed r

namespace Nested

theorem tail (h : Nested (f :: fs) r) : Nested fs r :=
  ⟨h.inside.of_cons, fun g hg => h.last g (List.mem_cons_of_mem f hg)⟩

theorem of_passed (hinside : fs.Pairwise fun f g => g.Passed f.path) (hpassed : ∀ f ∈ fs, f.Passed r) :
    Nested fs r :=
  ⟨hinside, fun f hf => .inr (hpassed f hf)⟩

theorem lt_nextPath (h : Nested (f :: fs) r) : r < f.nextPath := by
  rcases h.last f List.mem_cons_self with rfl | hpassed
  · exact Path.lt_descend f.path _ []
  · exact hpassed.lt_nextPath

/-- The entry made last is at the instruction that the innermost sequence belongs to, or inside it. -/
theorem path_prefix (h : Nested (f :: fs) r) : f.path.positions <+: r.positions := by
  rcases h.last f List.mem_cons_self with rfl | hpassed
  · exact List.prefix_rfl
  · exact hpassed.path_prefix

/-- A block of the instruction entered last goes on top of sequences that have passed that. -/
theorem push (hinside : fs.Pairwise fun f g => g.Passed f.path) (hpassed : ∀ f ∈ fs, f.Passed path)
    (hg : g.Opens i path) : Nested (g :: fs) path := by
  obtain rfl : g.path = path := by cases hg <;> rfl
  refine ⟨List.pairwise_cons.mpr ⟨hpassed, hinside⟩, ?_⟩
  rw [List.forall_mem_cons]
  exact ⟨.inl rfl, fun f hf => .inr (hpassed f hf)⟩

/-- What is on the stack once an instruction is entered is nested, and it has passed the instruction. -/
theorem enter (h : Nested (f :: fs) r) (he : f.upcoming? = some (i, path)) :
    (f.advance ++ fs).Pairwise (fun f g => g.Passed f.path) ∧ ∀ g ∈ f.advance ++ fs, g.Passed path := by
  obtain ⟨houter, hfs⟩ := List.pairwise_cons.mp h.inside
  obtain ⟨-, rfl, hadvance⟩ | ⟨-, -, rfl, hadvance⟩ := upcoming?_cases he
  · rw [hadvance, List.singleton_append, List.pairwise_cons, List.forall_mem_cons]
    exact ⟨⟨houter, hfs⟩, passed_nextPath f, fun g hg => (houter g hg).child _⟩
  · rw [hadvance, List.nil_append]
    exact ⟨hfs, houter⟩

end Nested
end Frame

/-- An entry at `r'` may come next after one at `r`: it is further on in the program, or it goes back to a
loop, from the loop itself or from inside it. -/
def Program.Follows (p : Program) (r r' : Path) : Prop :=
  r < r' ∨ (∃ i, p.find? r' = some i ∧ i.kind = .loop) ∧ r'.positions <+: r.positions

def Program.LoopFree (p : Program) : Prop :=
  ∀ e ∈ Instruction.listing p.instructions, e.2.kind ≠ .loop

instance (p : Program) : Decidable p.LoopFree :=
  inferInstanceAs (Decidable (∀ e ∈ Instruction.listing p.instructions, e.2.kind ≠ .loop))

theorem Program.LoopFree.kind_ne {p : Program} (h : p.LoopFree) {path : Path} {i : Instruction}
    (hi : p.find? path = some i) : i.kind ≠ .loop :=
  h (path, i) (Instruction.mem_listing_iff.mpr hi)

theorem Frame.Nested.follows {f : Frame} {fs : List Frame} {r path : Path} {i : Instruction} {p : Program}
    (h : Nested (f :: fs) r) (he : f.upcoming? = some (i, path)) (hlocated : f.Located p)
    (hloop : f.BodyOfLoop) : p.Follows r path := by
  obtain ⟨-, rfl, -⟩ | ⟨-, hl, rfl, -⟩ := upcoming?_cases he
  · exact .inl h.lt_nextPath
  · exact .inr ⟨⟨i, hlocated.loop i hl, hloop i hl⟩, h.path_prefix⟩

namespace Session

variable {s t : Session} {p : Program} {o : Outcome}

/-- The path entered last, or that of the program if none was. -/
def lastPath (s : Session) : Path :=
  s.enteredPaths.getLast?.getD .root

/-- The entries of the session so far follow one another, and its stack is nested around the last one. -/
structure Ordered (p : Program) (s : Session) : Prop where
  complete : s.Complete
  located : ∀ f ∈ s.frames, f.Located p
  loops : ∀ f ∈ s.frames, f.BodyOfLoop
  nested : Frame.Nested s.frames s.lastPath
  follows : s.enteredPaths.IsChain p.Follows

theorem ordered_start (p : Program) (cancelAt : Option Nat) : (start p cancelAt).Ordered p where
  complete := complete_start p cancelAt
  located := located_start p cancelAt
  loops := by
    intro f hf i hi
    obtain rfl := List.mem_singleton.mp hf
    cases hi
  nested := ⟨List.pairwise_singleton _ _, fun f hf => .inl (by rw [List.mem_singleton.mp hf]; rfl)⟩
  follows := .nil

namespace Ordered

theorem of_eq (h : s.Ordered p) (hframes : t.frames = s.frames)
    (hentered : t.enteredPaths = s.enteredPaths) : t.Ordered p where
  complete := by
    rw [Complete, hframes]
    exact h.complete
  located := hframes ▸ h.located
  loops := hframes ▸ h.loops
  nested := by
    rw [lastPath, hframes, hentered]
    exact h.nested
  follows := hentered ▸ h.follows

theorem tail {f : Frame} {fs : List Frame} (h : s.Ordered p) (hf : s.frames = f :: fs) :
    { s with frames := fs }.Ordered p where
  complete g hg := h.complete g (hf ▸ List.mem_cons_of_mem f hg)
  located g hg := h.located g (hf ▸ List.mem_cons_of_mem f hg)
  loops g hg := h.loops g (hf ▸ List.mem_cons_of_mem f hg)
  nested := (hf ▸ h.nested).tail
  follows := h.follows

theorem moves (h : s.Ordered p) (hm : Moves s o t) : t.Ordered p := by
  have hcomplete : t.Complete := hm.complete h.complete
  have hlocated := hm.located h.located
  have hloops : ∀ f ∈ t.frames, f.BodyOfLoop :=
    hm.forall_frames h.loops (fun _ _ hf hg => hf.of_advance hg) fun _ _ _ _ _ _ hg => .of_opens hg
  cases hm with
  | finish _ => exact h.of_eq rfl rfl
  | leave hf _ => exact h.tail hf
  | cancel hf _ _ hgs =>
    rcases hgs with rfl | rfl
    · exact h.of_eq hf.symm rfl
    · exact h.tail hf
  | @enter f fs i path _ _ hf he _ hp =>
    -- What comes next is past the entry made last, and all that stays on the stack has passed it.
    have hnested : Frame.Nested (f :: fs) s.lastPath := hf ▸ h.nested
    have hmem : f ∈ s.frames := hf ▸ List.mem_cons_self
    obtain ⟨hinside, hpassed⟩ := hnested.enter he
    have hentered : t.enteredPaths = s.enteredPaths ++ [path] := by
      rw [hp.shows.1, enteredPaths_enter]
      rfl
    refine ⟨hcomplete, hlocated, hloops, ?_, ?_⟩
    · rw [lastPath, hentered, List.getLast?_concat, Option.getD_some]
      rcases hp.frames with hframes | ⟨g, hg, hframes⟩
      · rw [hframes, enter_frames]
        exact .of_passed hinside hpassed
      · rw [hframes, enter_frames]
        exact .push hinside hpassed hg
    · rw [hentered, List.isChain_append]
      refine ⟨h.follows, .singleton path, fun r hr r' hr' => ?_⟩
      obtain rfl : path = r' := by simpa using hr'
      have hlast : s.lastPath = r := by rw [lastPath, hr, Option.getD_some]
      rw [← hlast]
      exact hnested.follows he (h.located f hmem) (h.loops f hmem)

end Ordered

theorem invariant_ordered (p : Program) : Invariant (Ordered p) where
  begin hs := hs.of_eq (begin_frames _) (enteredPaths_begin _)
  step hs := hs.moves (step_moves hs.complete)
  state _ hs := hs.of_eq rfl rfl
  assign _ _ hs := hs.of_eq rfl (enteredPaths_emit rfl)
  cancel hs := hs.of_eq rfl rfl

theorem ordered_after (p : Program) (cancelAt : Option Nat) (calls : List Call) :
    ((start p cancelAt).after calls).Ordered p :=
  (invariant_ordered p).after (ordered_start p cancelAt) calls

/-! ## Programs without loops -/

theorem Ordered.loop_eq_none (h : s.Ordered p) (hp : p.LoopFree) {f : Frame} (hf : f ∈ s.frames) :
    f.loop = none := by
  cases hl : f.loop with
  | none => rfl
  | some i => exact absurd (h.loops f hf i hl) (hp.kind_ne ((h.located f hf).loop i hl))

/-- Without loops the entries go on and on, so that no instruction is entered twice. -/
theorem Ordered.pairwise (h : s.Ordered p) (hp : p.LoopFree) : s.enteredPaths.Pairwise (· < ·) := by
  refine (h.follows.imp fun r r' hr => ?_).pairwise
  rcases hr with hlt | ⟨⟨i, hi, hk⟩, -⟩
  · exact hlt
  · exact absurd hk (hp.kind_ne hi)

end Session
end Pseudocode
