import Pseudocode.Proofs.Program.Offences
import Pseudocode.View.Flowchart

/-! # The nodes of a flowchart

A flowchart has a node for each path at which the program has an instruction, and only one, since the
listing that it follows goes in the order of the paths. Each node shows the instruction at its path, and
is connected to the next one.
-/

namespace Pseudocode

namespace Flowchart

variable {p : Program} {path : Path} {i : Instruction}

@[simp] theorem node_path (p : Program) (n : Nat) (path : Path) (i : Instruction) :
    (node p n path i).path = path := rfl

@[simp] theorem node_style (p : Program) (n : Nat) (path : Path) (i : Instruction) :
    (node p n path i).style = p.style path i.kind := rfl

theorem filter_nodes_of_ne {es : List (Path × Instruction)} (h : ∀ e ∈ es, e.1 ≠ path)
    (number : Nat → Nat) :
    (es.mapIdx fun n e => node p (number n) e.1 e.2).filter (·.path = path) = [] := by
  rw [List.filter_eq_nil_iff]
  intro n hn
  obtain ⟨k, hk, rfl⟩ := List.mem_mapIdx.mp hn
  rw [node_path, decide_eq_true_eq]
  exact h _ (List.getElem_mem hk)

/-- The one node with the path of an instruction is the node of that instruction. -/
theorem filter_nodes (h : p.find? path = some i) :
    ∃ n, (ofProgram p).nodes.filter (·.path = path) = [node p n path i] := by
  obtain ⟨as, bs, heq, has, hbs⟩ := Instruction.listing_split h
  have hbefore := filter_nodes_of_ne (p := p) (fun e he => Path.ne_of_lt (has e he)) (· + 1)
  have hafter := filter_nodes_of_ne (p := p) (fun e he => (Path.ne_of_lt (hbs e he)).symm)
    (· + 1 + as.length + 1)
  refine ⟨as.length + 1, ?_⟩
  simp only [ofProgram, heq, List.mapIdx_append, List.mapIdx_cons, List.filter_append,
    List.filter_cons, node_path, decide_true, if_true, Nat.zero_add]
  rw [hbefore, hafter, List.nil_append]

/-! ## What a node shows -/

inductive Depicts (i : Instruction) : Shape → String → Prop where
  | assign {e : Expr} : i.kind = .assign → i.value = some e →
      Depicts i .rectangle ("ASIGNACION " ++ i.argument ++ " = " ++ e.render)
  | branch {e : Expr} : i.kind = .branch → i.argumentExpr = some e →
      Depicts i .rhombus ("SI (" ++ e.render ++ ")")
  | loop {e : Expr} : i.kind = .loop → i.argumentExpr = some e →
      Depicts i .rhombus ("MIENTRAS (" ++ e.render ++ ")")
  | display {e : Expr} : i.kind = .display → i.argumentExpr = some e →
      Depicts i .parallelogram ("MOSTRAR " ++ e.render)
  | input : i.kind = .input → Depicts i .parallelogram ("LEER " ++ i.argument)

theorem depicts_of_wellFormed {depth : Nat} (h : i.WellFormed depth) :
    Depicts i (.of i.kind) (nodeText i) := by
  cases hkind : i.kind with
  | assign =>
    obtain ⟨e, he⟩ := Option.isSome_iff_exists.mp (h.value.mpr hkind)
    have htext : nodeText i = "ASIGNACION " ++ i.argument ++ " = " ++ e.render := by
      simp [nodeText, hkind, he, String.append_assoc]
    rw [htext]
    exact .assign hkind he
  | branch =>
    obtain ⟨e, he, hrender⟩ := h.argument (by simp [hkind])
    rw [nodeText, hkind, ← hrender]
    exact .branch hkind he
  | loop =>
    obtain ⟨e, he, hrender⟩ := h.argument (by simp [hkind])
    rw [nodeText, hkind, ← hrender]
    exact .loop hkind he
  | display =>
    obtain ⟨e, he, hrender⟩ := h.argument (by simp [hkind])
    rw [nodeText, hkind, ← hrender]
    exact .display hkind he
  | input =>
    rw [nodeText, hkind]
    exact .input hkind

/-! ## All nodes -/

theorem map_path_nodes (p : Program) :
    (ofProgram p).nodes.map (·.path) = (Instruction.listing p.instructions).map (·.1) := by
  refine List.ext_getElem? fun k => ?_
  rw [ofProgram, List.getElem?_map, List.getElem?_mapIdx, List.getElem?_map, Option.map_map]
  rfl

theorem nodes_getElem? {k : Nat} {n : Node} (h : (ofProgram p).nodes[k]? = some n) :
    ∃ path i, p.find? path = some i ∧ n = node p (k + 1) path i := by
  rw [ofProgram, List.getElem?_mapIdx] at h
  obtain ⟨⟨path, i⟩, hentry, rfl⟩ := Option.map_eq_some_iff.mp h
  exact ⟨path, i, Instruction.mem_listing_iff.mp (List.mem_of_getElem? hentry), rfl⟩

/-- The nodes go in the order of their paths, and these are the paths of all instructions. A node has its number
in this order, and it shows the instruction at its path in the style of that. Each node but the last one is
connected to the next one. -/
theorem nodes_enumerate (p : Program) :
    ((ofProgram p).nodes.map (·.path)).Pairwise (· < ·) ∧
    (∀ path, path ∈ (ofProgram p).nodes.map (·.path) ↔ (p.find? path).isSome) ∧
    (∀ k n, (ofProgram p).nodes[k]? = some n → n.index = k + 1 ∧
      ∃ i, p.find? n.path = some i ∧ Depicts i n.shape n.text ∧ n.style = p.style n.path i.kind) ∧
    (ofProgram p).connections.map (fun c => (c.name, c.source, c.target)) =
      (List.range' 1 ((ofProgram p).nodes.length - 1)).map fun k => ("c" ++ toString k, k, k + 1) := by
  refine ⟨?_, fun path => ?_, fun k n hn => ?_, ?_⟩
  · rw [map_path_nodes, List.pairwise_map]
    exact Instruction.pairwise_listing p.instructions
  · rw [map_path_nodes, List.mem_map, Option.isSome_iff_exists]
    constructor
    · rintro ⟨⟨_, i⟩, hmem, rfl⟩
      exact ⟨i, Instruction.mem_listing_iff.mp hmem⟩
    · rintro ⟨i, hi⟩
      exact ⟨(path, i), Instruction.mem_listing_iff.mpr hi, rfl⟩
  · obtain ⟨path, i, hi, rfl⟩ := nodes_getElem? hn
    have hvalid := checkInstructions_eq_none_iff.mp p.instructions_valid path i hi
    exact ⟨rfl, i, hi, depicts_of_wellFormed hvalid, rfl⟩
  · rw [List.range'_eq_map_range, List.map_map, ofProgram, List.length_mapIdx, List.map_map]
    refine List.map_congr_left fun k _ => ?_
    simp [connection, Nat.add_comm]

/-- The node of an input in the second block of a branch: its position goes on after the first block. -/
theorem nodes_enumerate_otherwise : ∃ (p : Program) (n : Node),
    p.instructions = [.branch (.var "x") [.display (.var "x") 2] (some [.input "y" 4]) 1] ∧
      (ofProgram p).nodes[2]? = some n ∧ n.path = ⟨[1, 2]⟩ ∧ n.index = 3 ∧
      ∃ i, p.find? n.path = some i ∧ Depicts i n.shape n.text ∧ n.style = p.style n.path i.kind := by
  let p : Program := ⟨[.branch (.var "x") [.display (.var "x") 2] (some [.input "y" 4]) 1], [], [],
    by decide +kernel, rfl⟩
  have hn : (ofProgram p).nodes[2]? = some (node p 3 ⟨[1, 2]⟩ (.input "y" 4)) := rfl
  exact ⟨p, _, rfl, hn, rfl, (nodes_enumerate p).2.2.1 2 _ hn⟩

end Flowchart
end Pseudocode
