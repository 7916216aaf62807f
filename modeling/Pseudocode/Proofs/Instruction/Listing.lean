import Pseudocode.Instruction.Listing

/-! # The order of instructions

The listing of a tree holds each instruction with the path by which it is found. It goes in the order of
the paths, which is that of the document: an instruction stands before those inside it, and those of its
second block stand after those of the first.
-/

namespace Pseudocode

namespace Path

def descend (p : Path) (ms : List Nat) : Path :=
  ⟨p.positions ++ ms⟩

variable {p q r : Path} {m n : Nat} {ms ns : List Nat}

theorem child_descend (p : Path) (n : Nat) (ms : List Nat) :
    (p.child n).descend ms = p.descend (n :: ms) := by
  rw [descend, descend, child, List.append_assoc, List.singleton_append]

theorem lt_descend (p : Path) (m : Nat) (ms : List Nat) : p < p.descend (m :: ms) := by
  have h : p.positions ++ [] < p.positions ++ m :: ms := List.append_left_lt (List.nil_lt_cons m ms)
  rwa [List.append_nil] at h

theorem descend_lt_descend (p : Path) (h : m < n) (ms ns : List Nat) :
    p.descend (m :: ms) < p.descend (n :: ns) :=
  List.append_left_lt (List.cons_lt_cons_iff.mpr (.inl h))

theorem lt_irrefl (p : Path) : ¬ p < p :=
  List.lt_irrefl p.positions

theorem ne_of_lt (h : p < q) : p ≠ q := by
  rintro rfl
  exact lt_irrefl p h

theorem lt_asymm (h : p < q) : ¬ q < p :=
  List.lt_asymm h

theorem lt_trans (h : p < q) (h' : q < r) : p < r :=
  List.lt_trans h h'

instance : Trans (α := Path) (· < ·) (· < ·) (· < ·) :=
  ⟨lt_trans⟩

end Path

namespace Instruction

variable {i j : Instruction} {is as bs : List Instruction} {path q : Path} {k n : Nat} {ms : List Nat}

/-! ## What is found at a path -/

theorem atPosition?_append_of_le (h : n ≤ as.length) : atPosition? (as ++ bs) n = atPosition? as n := by
  cases n with
  | zero => rfl
  | succ k => rw [atPosition?, atPosition?, List.getElem?_append_left h]

theorem atPosition?_append_of_lt (bs : List Instruction) (h : as.length < n) :
    atPosition? (as ++ bs) n = atPosition? bs (n - as.length) := by
  obtain ⟨k, rfl⟩ := Nat.exists_eq_add_of_lt h
  rw [Nat.add_assoc, Nat.add_sub_cancel_left]
  exact (List.getElem?_append_right (Nat.le_add_right _ _)).trans
    (by rw [Nat.add_sub_cancel_left, atPosition?])

theorem findFrom?_nil (n : Nat) (ms : List Nat) : findFrom? [] n ms = none := by
  cases ms <;> cases n <;> rfl

theorem findFrom?_congr {m : Nat} (h : atPosition? as n = atPosition? bs m) (ms : List Nat) :
    findFrom? as n ms = findFrom? bs m ms := by
  cases ms with
  | nil => exact h
  | cons _ _ => rw [findFrom?, findFrom?, h]

/-- The blocks of an instruction are looked through as if they were one sequence. -/
theorem findFrom?_cons (is : List Instruction) (n m : Nat) (ms : List Nat) :
    findFrom? is n (m :: ms) = (atPosition? is n).bind fun i => findFrom? i.children m ms := by
  rw [findFrom?]
  refine bind_congr fun i => ?_
  simp only [children]
  split
  case isTrue hm => exact findFrom?_congr (atPosition?_append_of_le hm).symm ms
  case isFalse hm =>
    have hpast (otherwise : List Instruction) :=
      findFrom?_congr (atPosition?_append_of_lt otherwise (Nat.lt_of_not_le hm)) ms
    cases i.otherwise with
    | none => exact ((hpast []).trans (findFrom?_nil _ ms)).symm
    | some otherwise => exact (hpast otherwise).symm

def at? (i : Instruction) : List Nat → Option Instruction
  | [] => some i
  | m :: ms => find? i.children (m :: ms)

theorem find?_zero_cons (is : List Instruction) (ms : List Nat) : find? is (0 :: ms) = none := by
  cases ms <;> rfl

theorem find?_succ_cons (is : List Instruction) (k : Nat) (ms : List Nat) :
    find? is ((k + 1) :: ms) = is[k]?.bind fun i => i.at? ms := by
  cases ms with
  | nil => exact (Option.bind_fun_some is[k]?).symm
  | cons m ms => exact findFrom?_cons is (k + 1) m ms

/-- The instruction `i` is found in the sequence `is`, and its path is `q` if the sequence is numbered
inside `path` from `n` on. -/
def Stands (is : List Instruction) (path : Path) (n : Nat) (q : Path) (i : Instruction) : Prop :=
  ∃ k ms, find? is ((k + 1) :: ms) = some i ∧ q = path.descend ((n + k) :: ms)

theorem not_stands_nil : ¬ Stands [] path n q i := by
  rintro ⟨k, ms, hi, -⟩
  simp [find?_succ_cons] at hi

theorem stands_cons : Stands (j :: is) path n q i ↔
    (∃ ms, j.at? ms = some i ∧ q = path.descend (n :: ms)) ∨ Stands is path (n + 1) q i := by
  constructor
  · rintro ⟨_ | k, ms, hi, hq⟩
    · exact .inl ⟨ms, by simpa [find?_succ_cons] using hi, hq⟩
    · refine .inr ⟨k, ms, by simpa [find?_succ_cons] using hi, ?_⟩
      rwa [Nat.add_assoc, Nat.add_comm 1 k]
  · rintro (⟨ms, hi, hq⟩ | ⟨k, ms, hi, hq⟩)
    · exact ⟨0, ms, by simpa [find?_succ_cons] using hi, hq⟩
    · refine ⟨k + 1, ms, by simpa [find?_succ_cons] using hi, ?_⟩
      rwa [Nat.add_assoc, Nat.add_comm 1 k] at hq

theorem stands_append : Stands (as ++ bs) path n q i ↔
    Stands as path n q i ∨ Stands bs path (n + as.length) q i := by
  induction as generalizing n with
  | nil => simp [not_stands_nil]
  | cons a as ih =>
    rw [List.cons_append, stands_cons, stands_cons, ih, or_assoc, List.length_cons, Nat.add_assoc,
      Nat.add_comm 1]

/-- What is found from an instruction on is the instruction itself or stands inside it. -/
theorem at?_iff : (∃ ms, j.at? ms = some i ∧ q = path.descend (n :: ms)) ↔
    (q, i) = (path.child n, j) ∨ Stands j.children (path.child n) 1 q i := by
  constructor
  · rintro ⟨_ | ⟨_ | m, ms⟩, hi, rfl⟩
    · exact .inl (by rw [Option.some.inj hi]; rfl)
    · cases (find?_zero_cons j.children ms).symm.trans hi
    · exact .inr ⟨m, ms, hi, by rw [Path.child_descend, Nat.add_comm]⟩
  · rintro (heq | ⟨k, ms, hi, rfl⟩)
    · obtain ⟨rfl, rfl⟩ := Prod.mk.inj heq
      exact ⟨[], rfl, rfl⟩
    · exact ⟨(k + 1) :: ms, hi, by rw [Path.child_descend, Nat.add_comm]⟩

/-! ## What is listed -/

mutual

theorem mem_listingBelow {path q : Path} {i : Instruction} : ∀ j : Instruction,
    (q, i) ∈ j.listingBelow path ↔ Stands j.children path 1 q i
  | ⟨_, _, _, _, body, otherwise, _⟩ => by
    rw [listingBelow, List.mem_append, mem_listingBlock body, mem_listingBlock otherwise, children,
      stands_append, Nat.add_comm 1]

theorem mem_listingBlock {path q : Path} {i : Instruction} {n : Nat} :
    ∀ b : Option (List Instruction), (q, i) ∈ listingBlock path n b ↔ Stands (b.getD []) path n q i
  | none => by simp [listingBlock, not_stands_nil]
  | some is => by rw [listingBlock, mem_listingFrom is, Option.getD_some]

theorem mem_listingFrom {path q : Path} {i : Instruction} {n : Nat} : ∀ is : List Instruction,
    (q, i) ∈ listingFrom path n is ↔ Stands is path n q i
  | [] => by simp [listingFrom, not_stands_nil]
  | j :: is => by
    rw [listingFrom, List.mem_append, List.mem_cons, mem_listingBelow j, mem_listingFrom is, stands_cons,
      at?_iff]

end

/-- The listing holds an instruction with a path just if it is found there. -/
theorem mem_listing_iff : (path, i) ∈ listing is ↔ find? is path.positions = some i := by
  rw [listing, mem_listingFrom]
  constructor
  · rintro ⟨k, ms, hi, rfl⟩
    rw [Nat.add_comm]
    exact hi
  · intro h
    obtain ⟨_ | ⟨_ | k, ms⟩⟩ := path
    · cases h
    · cases (find?_zero_cons is ms).symm.trans h
    · exact ⟨k, ms, h, by rw [Nat.add_comm]; rfl⟩

/-! ## The order of the listing -/

theorem Stands.lt {r : Path} {m : Nat} (h : Stands as path n q i) (h' : Stands bs path m r j)
    (hm : n + as.length ≤ m) : q < r := by
  obtain ⟨k, ms, hi, rfl⟩ := h
  obtain ⟨k', ms', -, rfl⟩ := h'
  have hk : k < as.length := by
    rw [find?_succ_cons] at hi
    obtain ⟨a, ha, -⟩ := Option.bind_eq_some_iff.mp hi
    exact (List.getElem?_eq_some_iff.mp ha).1
  exact Path.descend_lt_descend path (by omega) ms ms'

theorem Stands.path_lt (h : Stands is path n q i) : path < q := by
  obtain ⟨k, ms, -, rfl⟩ := h
  exact Path.lt_descend path _ ms

theorem stands_singleton (j : Instruction) (path : Path) (n : Nat) :
    Stands [j] path n (path.child n) j :=
  stands_cons.mpr (.inl (at?_iff.mpr (.inl rfl)))

theorem stands_of_below (h : Stands j.children (path.child n) 1 q i) : Stands [j] path n q i :=
  stands_cons.mpr (.inl (at?_iff.mpr (.inr h)))

mutual

theorem pairwise_listingBelow (path : Path) : ∀ j : Instruction,
    (j.listingBelow path).Pairwise fun a b => a.1 < b.1
  | ⟨_, _, _, _, body, otherwise, _⟩ => by
    rw [listingBelow, List.pairwise_append]
    refine ⟨pairwise_listingBlock path 1 body, pairwise_listingBlock path _ otherwise, ?_⟩
    rintro ⟨q, i⟩ hq ⟨r, j⟩ hr
    rw [mem_listingBlock] at hq hr
    exact hq.lt hr (Nat.le_of_eq (Nat.add_comm 1 _))

theorem pairwise_listingBlock (path : Path) (n : Nat) : ∀ b : Option (List Instruction),
    (listingBlock path n b).Pairwise fun a b => a.1 < b.1
  | none => .nil
  | some is => by
    rw [listingBlock]
    exact pairwise_listingFrom path n is

theorem pairwise_listingFrom (path : Path) (n : Nat) : ∀ is : List Instruction,
    (listingFrom path n is).Pairwise fun a b => a.1 < b.1
  | [] => .nil
  | i :: is => by
    rw [listingFrom, List.pairwise_append, List.pairwise_cons]
    refine ⟨⟨?_, pairwise_listingBelow _ i⟩, pairwise_listingFrom path (n + 1) is, ?_⟩
    · rintro ⟨q, j⟩ hq
      exact ((mem_listingBelow i).mp hq).path_lt
    · rintro ⟨q, j⟩ hq ⟨r, j'⟩ hr
      have hr := (mem_listingFrom is).mp hr
      rcases List.mem_cons.mp hq with hq | hq
      · obtain ⟨rfl, rfl⟩ := Prod.mk.inj hq
        exact (stands_singleton j path n).lt hr (Nat.le_refl _)
      · exact (stands_of_below ((mem_listingBelow i).mp hq)).lt hr (Nat.le_refl _)

end

/-- The listing goes in the order of the paths. -/
theorem pairwise_listing (is : List Instruction) :
    (listing is).Pairwise fun a b => a.1 < b.1 :=
  pairwise_listingFrom .root 1 is

theorem listing_split (h : find? is path.positions = some i) :
    ∃ as bs, listing is = as ++ (path, i) :: bs ∧ (∀ e ∈ as, e.1 < path) ∧ ∀ e ∈ bs, path < e.1 := by
  obtain ⟨as, bs, heq⟩ := List.append_of_mem (mem_listing_iff.mpr h)
  have hpairwise := pairwise_listing is
  rw [heq, List.pairwise_append, List.pairwise_cons] at hpairwise
  obtain ⟨-, ⟨hbs, -⟩, has⟩ := hpairwise
  exact ⟨as, bs, heq, fun e he => has e he (path, i) List.mem_cons_self, hbs⟩

/-- A search in the listing comes upon the first instruction, in the order of the paths, for which it
gives something. -/
theorem findSome?_listing_eq_some_iff {β : Type} {f : Path × Instruction → Option β} {b : β} :
    (listing is).findSome? f = some b ↔
      ∃ path i, find? is path.positions = some i ∧ f (path, i) = some b ∧
        ∀ q j, find? is q.positions = some j → q < path → f (q, j) = none := by
  rw [List.findSome?_eq_some_iff]
  constructor
  · rintro ⟨as, ⟨path, i⟩, bs, heq, hb, has⟩
    have hpairwise := pairwise_listing is
    rw [heq, List.pairwise_append, List.pairwise_cons] at hpairwise
    refine ⟨path, i, mem_listing_iff.mp (by simp [heq]), hb, fun q j hj hq => ?_⟩
    have hmem : (q, j) ∈ as ++ (path, i) :: bs := heq ▸ mem_listing_iff.mpr hj
    rcases List.mem_append.mp hmem with hmem | hmem
    · exact has _ hmem
    · rcases List.mem_cons.mp hmem with heq' | hmem
      · obtain ⟨rfl, rfl⟩ := Prod.mk.inj heq'
        exact absurd hq q.lt_irrefl
      · exact absurd hq (Path.lt_asymm (hpairwise.2.1.1 _ hmem))
  · rintro ⟨path, i, hi, hb, hfirst⟩
    obtain ⟨as, bs, heq, has, -⟩ := listing_split hi
    refine ⟨as, (path, i), bs, heq, hb, fun e he => ?_⟩
    exact hfirst e.1 e.2 (mem_listing_iff.mp (by simp [heq, he])) (has e he)

end Instruction
end Pseudocode
