import Pseudocode.Proofs.Program.SameShape
import Pseudocode.View.Flowchart

/-! # Flowcharts of programs that mirror each other

No node of a flowchart shows the line of an instruction. So the flowcharts of programs that are the same but for
lines, and for numbers in directives that compare as equal, are the same but for such numbers in styles.
-/

namespace Pseudocode

variable {p q : Program}

namespace Instruction

def unlinedAt (entry : Path × Instruction) : Path × Instruction :=
  (entry.1, entry.2.unlined)

mutual

theorem listingBelow_unlined (path : Path) : ∀ i : Instruction,
    i.unlined.listingBelow path = (i.listingBelow path).map unlinedAt
  | ⟨_, _, _, _, body, otherwise, _⟩ => by
    have hlength : ((unlinedBlock body).getD []).length = (body.getD []).length := by
      cases body <;> simp [unlinedBlock, unlinedSequence_eq]
    rw [unlined, listingBelow, listingBelow, hlength, listingBlock_unlined path _ body,
      listingBlock_unlined path _ otherwise, List.map_append]

theorem listingBlock_unlined (path : Path) (n : Nat) : ∀ b : Option (List Instruction),
    listingBlock path n (unlinedBlock b) = (listingBlock path n b).map unlinedAt
  | none => rfl
  | some is => listingFrom_unlined path n is

theorem listingFrom_unlined (path : Path) (n : Nat) : ∀ is : List Instruction,
    listingFrom path n (unlinedSequence is) = (listingFrom path n is).map unlinedAt
  | [] => rfl
  | i :: is => by
    rw [unlinedSequence, listingFrom, listingFrom, listingBelow_unlined (path.child n) i,
      listingFrom_unlined path (n + 1) is, List.map_append, List.map_cons]
    rfl

end

theorem listing_unlined (is : List Instruction) :
    listing (is.map unlined) = (listing is).map unlinedAt := by
  rw [← unlinedSequence_eq]
  exact listingFrom_unlined .root 1 is

end Instruction

structure Node.Same (m n : Node) : Prop where
  index : m.index = n.index
  path : m.path = n.path
  text : m.text = n.text
  shape : m.shape = n.shape
  x : m.x = n.x
  y : m.y = n.y
  width : m.width = n.width
  height : m.height = n.height
  style : m.style.Same n.style

structure Flowchart.Same (f g : Flowchart) : Prop where
  nodes : List.Forall₂ Node.Same f.nodes g.nodes
  connections : f.connections = g.connections

namespace Flowchart

theorem nodeText_unlined (i : Instruction) : nodeText i.unlined = nodeText i := by
  simp [nodeText]

theorem node_same (h : p.Mirrors q) (n : Nat) (path : Path) {i j : Instruction}
    (hij : i.unlined = j.unlined) : (node p n path i).Same (node q n path j) where
  index := rfl
  path := rfl
  text := by
    rw [node, node, ← nodeText_unlined i, hij, nodeText_unlined]
  shape := by
    rw [node, node, ← i.unlined_kind, hij, j.unlined_kind]
  x := rfl
  y := rfl
  width := rfl
  height := rfl
  style := by
    rw [node, node, ← i.unlined_kind, hij, j.unlined_kind]
    exact h.style path j.kind

/-- Flowcharts do not go by lines. -/
theorem ofProgram_same (h : p.Mirrors q) : (ofProgram p).Same (ofProgram q) := by
  have hlisting : (Instruction.listing p.instructions).map Instruction.unlinedAt =
      (Instruction.listing q.instructions).map Instruction.unlinedAt := by
    rw [← Instruction.listing_unlined, h.instructions, Instruction.listing_unlined]
  have hlength : (Instruction.listing p.instructions).length =
      (Instruction.listing q.instructions).length := by
    simpa using congrArg List.length hlisting
  constructor
  · rw [ofProgram, ofProgram, List.forall₂_iff_get]
    refine ⟨by simpa using hlength, fun k hk hk' => ?_⟩
    rw [List.length_mapIdx] at hk hk'
    have hentry : Instruction.unlinedAt (Instruction.listing p.instructions)[k] =
        Instruction.unlinedAt (Instruction.listing q.instructions)[k] := by
      simpa [hk, hk'] using congrArg (·[k]?) hlisting
    simp only [List.get_eq_getElem, List.getElem_mapIdx]
    generalize (Instruction.listing p.instructions)[k] = entry at hentry ⊢
    generalize (Instruction.listing q.instructions)[k] = entry' at hentry ⊢
    obtain ⟨path, i⟩ := entry
    obtain ⟨path', j⟩ := entry'
    obtain ⟨rfl, hij⟩ := Prod.mk.inj hentry
    exact node_same h (k + 1) path hij
  · rw [ofProgram, ofProgram, hlength]

end Flowchart
end Pseudocode
