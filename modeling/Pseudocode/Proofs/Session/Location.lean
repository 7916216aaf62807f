import Pseudocode.Proofs.Instruction.Listing
import Pseudocode.Proofs.Session.Lifecycle

/-! # Where instructions stand

A sequence on the stack knows the path of the instruction that it belongs to and how many instructions
are numbered before it. By this each of its instructions gets the path at which it stands in the program,
and so a session enters an instruction of the program, at its own path.
-/

namespace Pseudocode

namespace Instruction

/-- The children of an instruction are those addressed by one position more. -/
theorem find?_append {is : List Instruction} {ms : List Nat} {i : Instruction}
    (h : find? is ms = some i) (k : Nat) : find? is (ms ++ [k + 1]) = i.children[k]? := by
  induction ms generalizing is with
  | nil => cases h
  | cons m ms ih =>
    cases m with
    | zero => cases (find?_zero_cons is ms).symm.trans h
    | succ n =>
      rw [find?_succ_cons] at h
      obtain ⟨j, hj, hi⟩ := Option.bind_eq_some_iff.mp h
      rw [List.cons_append, find?_succ_cons, hj, Option.bind_some]
      cases ms with
      | nil =>
        obtain rfl := Option.some.inj hi
        rfl
      | cons m ms => exact ih hi

theorem children_body {i : Instruction} {body : List Instruction} (hb : i.body = some body)
    {k : Nat} {j : Instruction} (hj : body[k]? = some j) : i.children[k]? = some j := by
  rw [children, hb, Option.getD_some, List.getElem?_append_left (List.getElem?_eq_some_iff.mp hj).1,
    hj]

theorem children_otherwise {i : Instruction} {body otherwise : List Instruction}
    (hb : i.body = some body) (ho : i.otherwise = some otherwise) (k : Nat) :
    i.children[body.length + k]? = otherwise[k]? := by
  rw [children, hb, ho, Option.getD_some, Option.getD_some,
    List.getElem?_append_right (Nat.le_add_right _ _), Nat.add_sub_cancel_left]

end Instruction

namespace Program

variable {p : Program} {i : Instruction} {path : Path}

theorem find?_root_child (p : Program) (k : Nat) :
    p.find? (Path.root.child (k + 1)) = p.instructions[k]? := rfl

theorem find?_child (h : p.find? path = some i) (k : Nat) :
    p.find? (path.child (k + 1)) = i.children[k]? :=
  Instruction.find?_append h k

end Program

namespace Frame

variable {p : Program} {f g : Frame} {i : Instruction} {path : Path}

/-- The instructions of a sequence, and the loop that it is the body of, stand in the program at the
paths by which the sequence knows them. -/
structure Located (p : Program) (f : Frame) : Prop where
  instructions : ∀ k i, f.instructions[k]? = some i →
    p.find? (f.path.child (f.offset + k + 1)) = some i
  loop : ∀ i, f.loop = some i → p.find? f.path = some i

namespace Located

theorem of_upcoming? (h : f.Located p) (he : f.upcoming? = some (i, path)) :
    p.find? path = some i := by
  obtain ⟨hi, rfl, -⟩ | ⟨-, hl, rfl, -⟩ := upcoming?_cases he
  · exact h.instructions f.next _ hi
  · exact h.loop _ hl

theorem of_advance (h : f.Located p) (hg : g ∈ f.advance) : g.Located p := by
  obtain rfl := eq_of_mem_advance hg
  exact ⟨h.instructions, h.loop⟩

/-- A block of an instruction that stands at its path is numbered as the children of it are. -/
theorem of_opens (h : p.find? path = some i) (hg : g.Opens i path) : g.Located p := by
  cases hg with
  | body _ hb =>
    refine ⟨fun k j hj => ?_, nofun⟩
    rw [Nat.zero_add, Program.find?_child h]
    exact Instruction.children_body hb hj
  | otherwise _ hb ho =>
    refine ⟨fun k j hj => ?_, nofun⟩
    rw [Program.find?_child h, Instruction.children_otherwise hb ho]
    exact hj
  | loop _ hb =>
    refine ⟨fun k j hj => ?_, fun j hj => ?_⟩
    · rw [Nat.zero_add, Program.find?_child h]
      exact Instruction.children_body hb hj
    · obtain rfl := Option.some.inj hj
      exact h

end Located
end Frame

namespace Session

variable {s t : Session} {o : Outcome} {p : Program}

theorem located_start (p : Program) (cancelAt : Option Nat) :
    ∀ f ∈ (start p cancelAt).frames, f.Located p := by
  intro f hf
  obtain rfl := List.mem_singleton.mp hf
  refine ⟨fun k i hi => ?_, nofun⟩
  rw [Nat.zero_add, Program.find?_root_child]
  exact hi

theorem Moves.located (h : Moves s o t) (hs : ∀ f ∈ s.frames, f.Located p) :
    ∀ f ∈ t.frames, f.Located p :=
  h.forall_frames hs (fun _ _ hf hg => hf.of_advance hg)
    fun _ _ _ _ hf he hg => .of_opens (hf.of_upcoming? he) hg

end Session
end Pseudocode
