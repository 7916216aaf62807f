import Pseudocode.Proofs.Session.Semantics

/-! # Validated trees lack nothing

Validation goes through all instructions of a tree, so that each instruction of a program carries
what its kind needs, at whatever depth it stands.
-/

namespace Pseudocode

namespace Instruction

theorem action?_isSome_of_offence? {i : Instruction} {depth : Nat} (h : i.offence? depth = none) :
    i.action?.isSome := by
  obtain ⟨kind, argument, argumentExpr, value, body, otherwise, line⟩ := i
  cases kind <;> cases argumentExpr <;> cases value <;> cases body <;>
    simp_all [offence?, blockOffence?, argumentOffence?, valueOffence?, action?,
      InstructionKind.hasBlock]

mutual

theorem complete_of_listingBelow (path : Path) : ∀ i : Instruction, i.action?.isSome →
    (∀ q ∈ i.listingBelow path, q.2.action?.isSome) → i.Complete
  | ⟨kind, argument, argumentExpr, value, body, otherwise, line⟩, ha, h => by
    rw [listingBelow] at h
    refine .intro ha fun j hj => ?_
    rcases List.mem_append.mp hj with hj | hj
    · exact complete_of_listingBlock path 1 body (fun q hq => h q (List.mem_append_left _ hq)) j hj
    · exact complete_of_listingBlock path _ otherwise (fun q hq => h q (List.mem_append_right _ hq))
        j hj

theorem complete_of_listingBlock (path : Path) (n : Nat) : ∀ b : Option (List Instruction),
    (∀ q ∈ listingBlock path n b, q.2.action?.isSome) → ∀ j ∈ b.getD [], j.Complete
  | none, _ => by simp
  | some is, h => complete_of_listingFrom path n is (by rwa [listingBlock] at h)

theorem complete_of_listingFrom (path : Path) (n : Nat) : ∀ is : List Instruction,
    (∀ q ∈ listingFrom path n is, q.2.action?.isSome) → ∀ j ∈ is, j.Complete
  | [], _ => by simp
  | i :: is, h => by
    rw [listingFrom] at h
    intro j hj
    rcases List.mem_cons.mp hj with hj | hj
    · rw [hj]
      exact complete_of_listingBelow _ i (h _ List.mem_cons_self)
        fun q hq => h q (List.mem_cons_of_mem _ (List.mem_append_left _ hq))
    · exact complete_of_listingFrom path (n + 1) is
        (fun q hq => h q (List.mem_cons_of_mem _ (List.mem_append_right _ hq))) j hj

end
end Instruction

theorem offence?_of_checkInstructions {is : List Instruction} (h : checkInstructions is = none)
    {q : Path × Instruction} (hq : q ∈ Instruction.listing is) :
    q.2.offence? (q.1.depth - 1) = none := by
  rw [checkInstructions_eq, List.findSome?_eq_none_iff] at h
  simpa [errorAt?] using h q hq

/-- No instruction of a program lacks anything. -/
theorem Program.complete (p : Program) : ∀ i ∈ p.instructions, i.Complete :=
  Instruction.complete_of_listingFrom .root 1 p.instructions fun _ hq =>
    Instruction.action?_isSome_of_offence? (offence?_of_checkInstructions p.instructions_valid hq)

end Pseudocode
