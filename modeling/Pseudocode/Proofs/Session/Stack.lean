import Mathlib.Data.List.Chain
import Pseudocode.Proofs.Instruction.Listing
import Pseudocode.Proofs.Program.Validity
import Pseudocode.Proofs.Session.Location

/-! # The stack

The sequences on the stack of a session are nested like the program: at the bottom is the program itself,
and each other one is a block of the instruction that the sequence below it has entered last. So no stack is
higher than blocks nest in the program, however long the session runs.
-/

namespace Pseudocode

theorem Program.depth_le_of_find? (p : Program) {path : Path} {i : Instruction}
    (h : p.find? path = some i) (hb : i.body.isSome) : path.depth ≤ maxNesting := by
  have hmem : (path, i) ∈ Instruction.listing p.instructions := Instruction.mem_listing_iff.mpr h
  have hnone : i.offence? (path.depth - 1) = none :=
    offence?_of_checkInstructions p.instructions_valid hmem
  have hdepth : ¬ maxNesting ≤ path.depth - 1 := by
    intro hle
    simp [Instruction.offence?, hb, hle] at hnone
  omega

namespace Frame

variable {f g : Frame} {fs : List Frame} {i : Instruction} {path : Path} {p : Program}

/-- The sequence is a block of the instruction `i`: its body, which a loop goes back from, or the second block
of a branch, which is numbered after the first one. -/
inductive BlockOf (i : Instruction) : Frame → Prop where
  | body {is : List Instruction} (next : Nat) (path : Path) : i.kind = .branch → i.body = some is →
      BlockOf i ⟨is, next, path, 0, none⟩
  | otherwise {body is : List Instruction} (next : Nat) (path : Path) : i.kind = .branch →
      i.body = some body → i.otherwise = some is → BlockOf i ⟨is, next, path, body.length, none⟩
  | loop {is : List Instruction} (next : Nat) (path : Path) : i.kind = .loop → i.body = some is →
      BlockOf i ⟨is, next, path, 0, some i⟩

/-- The sequence `g` is a block of the instruction that `f` has entered last. -/
structure Within (p : Program) (g f : Frame) : Prop where
  path : g.path = f.path.child (f.offset + f.next)
  block : ∃ i, p.find? g.path = some i ∧ g.BlockOf i

/-- The sequences, the innermost one first, lead from the program to a block inside it. -/
structure WellNested (p : Program) (fs : List Frame) : Prop where
  bottom : ∀ f ∈ fs.getLast?, ∃ next, f = ⟨p.instructions, next, .root, 0, none⟩
  within : fs.IsChain (Within p)
  next_le : ∀ f ∈ fs, f.next ≤ f.instructions.length

theorem BlockOf.body_isSome (h : g.BlockOf i) : i.body.isSome := by
  cases h with
  | body _ _ _ hb | otherwise _ _ _ hb _ | loop _ _ _ hb => exact Option.isSome_of_eq_some hb

theorem BlockOf.of_next (h : f.BlockOf i) (n : Nat) : { f with next := n }.BlockOf i := by
  cases h with
  | body _ path hk hb => exact .body n path hk hb
  | otherwise _ path hk hb ho => exact .otherwise n path hk hb ho
  | loop _ path hk hb => exact .loop n path hk hb

theorem Opens.blockOf (h : g.Opens i path) : g.BlockOf i ∧ g.path = path ∧ g.next = 0 := by
  cases h with
  | body hk hb => exact ⟨.body 0 path hk hb, rfl, rfl⟩
  | otherwise hk hb ho => exact ⟨.otherwise 0 path hk hb ho, rfl, rfl⟩
  | loop hk hb => exact ⟨.loop 0 path hk hb, rfl, rfl⟩

theorem Within.of_next (h : Within p g f) (n : Nat) : Within p { g with next := n } f := by
  obtain ⟨i, hi, hblock⟩ := h.block
  exact ⟨h.path, i, hi, hblock.of_next n⟩

namespace WellNested

theorem tail (h : WellNested p (f :: fs)) : WellNested p fs where
  bottom g hg := h.bottom g (List.mem_getLast?_cons hg)
  within := (List.isChain_cons.mp h.within).2
  next_le g hg := h.next_le g (List.mem_cons_of_mem f hg)

theorem within_head (h : WellNested p (g :: f :: fs)) : Within p g f :=
  (List.isChain_cons_cons.mp h.within).1

theorem of_head (h : WellNested p (f :: fs)) {n : Nat} (hn : n ≤ f.instructions.length) :
    WellNested p ({ f with next := n } :: fs) where
  bottom g hg := by
    cases fs with
    | nil =>
      obtain ⟨next, rfl⟩ := h.bottom f rfl
      exact ⟨n, (Option.some.inj hg).symm⟩
    | cons f' fs => exact h.bottom g hg
  within := List.isChain_cons.mpr
    ⟨fun f' hf' => ((List.isChain_cons.mp h.within).1 f' hf').of_next n, h.tail.within⟩
  next_le := List.forall_mem_cons.mpr ⟨hn, h.tail.next_le⟩

theorem push (h : WellNested p (f :: fs)) (hg : Within p g f) (hn : g.next ≤ g.instructions.length) :
    WellNested p (g :: f :: fs) where
  bottom := h.bottom
  within := List.isChain_cons_cons.mpr ⟨hg, h.within⟩
  next_le := List.forall_mem_cons.mpr ⟨hn, h.next_le⟩

/-- What is left on the stack for an instruction that is entered: below it stands the sequence that it belongs
to, which has entered it last. -/
theorem enter (h : WellNested p (f :: fs)) (he : f.upcoming? = some (i, path)) :
    ∃ f' fs', f.advance ++ fs = f' :: fs' ∧ WellNested p (f' :: fs') ∧
      path = f'.path.child (f'.offset + f'.next) := by
  obtain ⟨hi, rfl, hadvance⟩ | ⟨-, hl, rfl, hadvance⟩ := upcoming?_cases he
  · rw [hadvance]
    exact ⟨_, fs, rfl, h.of_head (List.getElem?_eq_some_iff.mp hi).1, rfl⟩
  · -- The program is the body of no loop, so it is not the sequence that is done.
    rw [hadvance]
    cases fs with
    | nil =>
      obtain ⟨next, rfl⟩ := h.bottom f rfl
      cases hl
    | cons f' fs => exact ⟨f', fs, rfl, h.tail, h.within_head.path⟩

theorem opens (h : WellNested p (f :: fs)) (hpath : path = f.path.child (f.offset + f.next))
    (hi : p.find? path = some i) (hg : g.Opens i path) : WellNested p (g :: f :: fs) := by
  obtain ⟨hblock, hgpath, hnext⟩ := hg.blockOf
  refine h.push ⟨hgpath.trans hpath, i, hgpath ▸ hi, hblock⟩ ?_
  rw [hnext]
  exact Nat.zero_le _

/-! ## The height of the stack -/

/-- With each sequence the path of the innermost one gets longer by a position. -/
theorem length_eq (h : WellNested p (f :: fs)) : (f :: fs).length = f.path.depth + 1 := by
  induction fs generalizing f with
  | nil =>
    obtain ⟨next, rfl⟩ := h.bottom f rfl
    rfl
  | cons f' fs ih =>
    rw [List.length_cons, ih h.tail, h.within_head.path, Path.depth_child]

theorem length_le (h : WellNested p fs) : fs.length ≤ maxNesting + 1 := by
  cases fs with
  | nil => exact Nat.zero_le _
  | cons f fs =>
    rw [h.length_eq]
    cases fs with
    | nil =>
      obtain ⟨next, rfl⟩ := h.bottom f rfl
      exact Nat.le_add_left _ _
    | cons f' fs =>
      obtain ⟨i, hi, hblock⟩ := h.within_head.block
      exact Nat.succ_le_succ (p.depth_le_of_find? hi hblock.body_isSome)

end WellNested
end Frame

namespace Session

variable {s t : Session} {p : Program} {o : Outcome}

/-- No instruction on the stack lacks anything, each stands in the program where its sequence has it, and the
sequences are nested. -/
structure Stands (p : Program) (s : Session) : Prop where
  complete : s.Complete
  located : ∀ f ∈ s.frames, f.Located p
  nested : Frame.WellNested p s.frames

theorem stands_start (p : Program) (cancelAt : Option Nat) : (start p cancelAt).Stands p where
  complete := complete_start p cancelAt
  located := located_start p cancelAt
  nested :=
    { bottom := fun _ hf => ⟨0, (Option.some.inj hf).symm⟩
      within := .singleton _
      next_le := List.forall_mem_singleton.mpr (Nat.zero_le _) }

theorem Stands.moves (h : s.Stands p) (hm : Moves s o t) : t.Stands p := by
  refine ⟨hm.complete h.complete, hm.located h.located, ?_⟩
  cases hm with
  | finish _ => exact h.nested
  | leave hf _ => exact (hf ▸ h.nested).tail
  | cancel hf _ _ hgs =>
    have hnested := hf ▸ h.nested
    rcases hgs with rfl | rfl
    · exact hnested
    · exact hnested.tail
  | @enter f fs i path _ _ hf he _ hp =>
    obtain ⟨f', fs', hframes, hnested, hpath⟩ := (hf ▸ h.nested).enter he
    have hi : p.find? path = some i := (h.located f (hf ▸ List.mem_cons_self)).of_upcoming? he
    rcases hp.frames with ht | ⟨g, hg, ht⟩
    · rw [ht, enter_frames, hframes]
      exact hnested
    · rw [ht, enter_frames, hframes]
      exact hnested.opens hpath hi hg

theorem invariant_stands (p : Program) : Invariant (Stands p) where
  begin {s} hs :=
    ⟨invariant_complete.begin hs.complete, (begin_frames s).symm ▸ hs.located,
      (begin_frames s).symm ▸ hs.nested⟩
  step hs := hs.moves (step_moves hs.complete)
  state _ hs := ⟨hs.complete, hs.located, hs.nested⟩
  assign _ _ hs := ⟨hs.complete, hs.located, hs.nested⟩
  cancel hs := ⟨hs.complete, hs.located, hs.nested⟩

/-- However a session is called, and wherever it stops between two steps, its stack is well nested, and no
higher than blocks may nest in a program. -/
theorem wellNested_after (p : Program) (cancelAt : Option Nat) (calls : List Call) :
    Frame.WellNested p ((start p cancelAt).after calls).frames ∧
      ((start p cancelAt).after calls).frames.length ≤ maxNesting + 1 := by
  have h := ((invariant_stands p).after (stands_start p cancelAt) calls).nested
  exact ⟨h, h.length_le⟩

end Session
end Pseudocode
