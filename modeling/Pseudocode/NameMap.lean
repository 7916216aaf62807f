/-! # Maps from names

A finite map from names, kept in increasing order of the names by code points.
-/

namespace Pseudocode

/-- Pairs of a name and what it stands for, in increasing order of the names. -/
structure NameMap (α : Type) where
  toList : List (String × α)
  sorted : toList.Pairwise (·.1 < ·.1)

namespace NameMap

variable {α : Type}

def empty : NameMap α := ⟨[], .nil⟩

/-- Puts a pair in its place, over a pair of the same name. -/
def insertSorted (name : String) (a : α) : List (String × α) → List (String × α)
  | [] => [(name, a)]
  | p :: ps =>
    if name < p.1 then (name, a) :: p :: ps
    else if name = p.1 then (name, a) :: ps
    else p :: insertSorted name a ps

theorem mem_insertSorted {name : String} {a : α} {ps : List (String × α)} {q : String × α}
    (h : q ∈ insertSorted name a ps) : q = (name, a) ∨ q ∈ ps := by
  induction ps with
  | nil => simpa [insertSorted] using h
  | cons p ps ih =>
    unfold insertSorted at h
    split at h
    · simpa using h
    · split at h
      · rcases List.mem_cons.1 h with h | h
        · exact .inl h
        · exact .inr (List.mem_cons_of_mem _ h)
      · rcases List.mem_cons.1 h with rfl | h
        · exact .inr List.mem_cons_self
        · exact (ih h).imp_right (List.mem_cons_of_mem _)

theorem pairwise_insertSorted (name : String) (a : α) {ps : List (String × α)}
    (h : ps.Pairwise (·.1 < ·.1)) : (insertSorted name a ps).Pairwise (·.1 < ·.1) := by
  induction ps with
  | nil => simp [insertSorted]
  | cons p ps ih =>
    obtain ⟨hp, hps⟩ := List.pairwise_cons.1 h
    unfold insertSorted
    split
    · next hlt =>
      refine List.pairwise_cons.2 ⟨fun q hq => ?_, h⟩
      rcases List.mem_cons.1 hq with rfl | hq
      · exact hlt
      · exact String.lt_trans hlt (hp q hq)
    · next hnlt =>
      split
      · next heq => exact List.pairwise_cons.2 ⟨fun q hq => heq ▸ hp q hq, hps⟩
      · next hne =>
        refine List.pairwise_cons.2 ⟨fun q hq => ?_, ih hps⟩
        rcases mem_insertSorted hq with rfl | hq
        · exact String.not_le.1 fun hle => hne (String.le_antisymm hle (String.not_lt.1 hnlt))
        · exact hp q hq

def insert (m : NameMap α) (name : String) (a : α) : NameMap α :=
  ⟨insertSorted name a m.toList, pairwise_insertSorted name a m.sorted⟩

def get? (m : NameMap α) (name : String) : Option α :=
  m.toList.lookup name

def isEmpty (m : NameMap α) : Bool :=
  m.toList.isEmpty

theorem ext {m n : NameMap α} (h : m.toList = n.toList) : m = n := by
  cases m; cases n; cases h; rfl

theorem lookup_insertSorted (name key : String) (a : α) (ps : List (String × α)) :
    (insertSorted name a ps).lookup key = if key = name then some a else ps.lookup key := by
  induction ps with
  | nil => by_cases h : key = name <;> simp [insertSorted, List.lookup_cons, h, beq_false_of_ne]
  | cons p ps ih =>
    obtain ⟨k, b⟩ := p
    unfold insertSorted
    split
    · by_cases h : key = name <;> simp [List.lookup_cons, h, beq_false_of_ne]
    · split
      · next heq =>
        cases heq
        by_cases h : key = k <;> simp [List.lookup_cons, h, beq_false_of_ne]
      · next hne =>
        rw [List.lookup_cons, ih]
        by_cases h : key = name
        · subst h
          simp [beq_false_of_ne hne]
        · simp [h, List.lookup_cons]

@[simp] theorem get?_empty (name : String) : (empty : NameMap α).get? name = none := rfl

theorem get?_insert (m : NameMap α) (name key : String) (a : α) :
    (m.insert name a).get? key = if key = name then some a else m.get? key :=
  lookup_insertSorted name key a m.toList

end NameMap
end Pseudocode
