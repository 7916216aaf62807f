import Pseudocode.Proofs.Instruction.Listing
import Pseudocode.Proofs.Program.RoundTrip

/-! # The expressions of a program

What holds of an instruction and of all instructions inside it is proved along the tree. Each expression of a
program that was read is that of a phrase, the tokens of which are tokens of the source.
-/

namespace Pseudocode

variable {ts : List Token} {source : String} {p : Program}

namespace Instruction

variable {P : Instruction → Prop} {i : Instruction} {is : List Instruction} {path : Path}

/-- The expressions of an instruction, without those of the instructions inside it. -/
def expressions (i : Instruction) : List Expr :=
  i.argumentExpr.toList ++ i.value.toList

inductive Everywhere (P : Instruction → Prop) : Instruction → Prop where
  | mk {i : Instruction} : P i → (∀ j ∈ i.children, Everywhere P j) → Everywhere P i

theorem Everywhere.self (h : i.Everywhere P) : P i := by
  cases h with
  | mk h _ => exact h

theorem Everywhere.children (h : i.Everywhere P) : ∀ j ∈ i.children, j.Everywhere P := by
  cases h with
  | mk _ h => exact h

theorem Everywhere.mono {Q : Instruction → Prop} (h : i.Everywhere P) (hPQ : ∀ j, P j → Q j) :
    i.Everywhere Q := by
  induction h with
  | mk h _ ih => exact .mk (hPQ _ h) ih

theorem Everywhere.of_at? {ms : List Nat} {j : Instruction} (h : i.Everywhere P)
    (hj : i.at? ms = some j) : j.Everywhere P := by
  induction ms generalizing i with
  | nil =>
    cases hj
    exact h
  | cons m ms ih =>
    cases m with
    | zero => cases (find?_zero_cons i.children ms).symm.trans hj
    | succ k =>
      rw [at?, find?_succ_cons] at hj
      obtain ⟨child, hchild, hj⟩ := Option.bind_eq_some_iff.mp hj
      exact ih (h.children child (List.mem_of_getElem? hchild)) hj

theorem Everywhere.of_mem_listing (h : ∀ i ∈ is, i.Everywhere P) (hi : (path, i) ∈ listing is) :
    i.Everywhere P := by
  obtain ⟨k, ms, hk, -⟩ := (mem_listingFrom is).mp hi
  rw [find?_succ_cons] at hk
  obtain ⟨top, htop, hk⟩ := Option.bind_eq_some_iff.mp hk
  exact (h top (List.mem_of_getElem? htop)).of_at? hk

end Instruction

def Program.expressions (p : Program) : List Expr :=
  (Instruction.listing p.instructions).flatMap fun (_, i) => i.expressions

theorem Program.forall_mem_expressions {P : Expr → Prop}
    (h : ∀ i ∈ p.instructions, i.Everywhere fun i => ∀ e ∈ i.expressions, P e) :
    ∀ e ∈ p.expressions, P e := by
  intro e he
  obtain ⟨⟨path, i⟩, hi, he⟩ := List.mem_flatMap.mp he
  exact (Instruction.Everywhere.of_mem_listing h hi).self e he

/-! ## Expressions that were read -/

/-- The expression is that of a phrase of some of the tokens, within the limit on nesting. -/
def Expr.Spelled (ts : List Token) (e : Expr) : Prop :=
  ∃ d : Phrase, d.expr = e ∧ d.Grammatical ∧ d.nesting ≤ maxNesting ∧ ∀ t ∈ d.tokens, t ∈ ts

def Instruction.Spelled (ts : List Token) (i : Instruction) : Prop :=
  i.Everywhere fun i => ∀ e ∈ i.expressions, e.Spelled ts

theorem Instruction.spelled_of_expr {i : Instruction} {e : Expr} (hi : i.expressions = [e])
    (he : e.Spelled ts) (hchildren : ∀ j ∈ i.children, j.Spelled ts) : i.Spelled ts :=
  .mk (by rwa [hi, List.forall_mem_singleton]) hchildren

mutual

theorem Item.spelled {ts : List Token} : ∀ item : Item, item.Grammatical → item.nesting ≤ maxNesting →
    (∀ t ∈ item.tokens, t ∈ ts) → ∀ i ∈ item.instruction?, i.Spelled ts
  | .assign t name equal d, ⟨_, _, hd⟩, hn, ht => by
    rintro _ ⟨⟩
    simp only [Item.tokens, List.forall_mem_cons] at ht
    exact Instruction.spelled_of_expr rfl ⟨d, rfl, hd, hn, ht.2.2⟩ nofun
  | .display t d, ⟨_, hd⟩, hn, ht => by
    rintro _ ⟨⟩
    simp only [Item.tokens, List.forall_mem_cons] at ht
    exact Instruction.spelled_of_expr rfl ⟨d, rfl, hd, hn, ht.2⟩ nofun
  | .input t target name, _, _, _ => by
    rintro _ ⟨⟩
    exact .mk nofun nofun
  | .branch t d body, ⟨_, hd, hb⟩, hn, ht => by
    rintro _ ⟨⟩
    obtain ⟨hnd, hnb⟩ := Nat.max_le.mp hn
    simp only [Item.tokens, List.forall_mem_cons, List.forall_mem_append] at ht
    refine Instruction.spelled_of_expr rfl ⟨d, rfl, hd, hnd, ht.2.1⟩ ?_
    exact List.forall_mem_append.mpr ⟨Nested.spelled body hb hnb ht.2.2, nofun⟩
  | .branchElse t d body otherwise, ⟨_, hd, hb, ho⟩, hn, ht => by
    rintro _ ⟨⟩
    obtain ⟨hnd, hnbo⟩ := Nat.max_le.mp hn
    obtain ⟨hnb, hno⟩ := Nat.max_le.mp hnbo
    simp only [Item.tokens, List.forall_mem_cons, List.forall_mem_append] at ht
    refine Instruction.spelled_of_expr rfl ⟨d, rfl, hd, hnd, ht.2.1⟩ ?_
    exact List.forall_mem_append.mpr
      ⟨Nested.spelled body hb hnb ht.2.2.1, Nested.spelled otherwise ho hno ht.2.2.2⟩
  | .loop t d body, ⟨_, hd, hb⟩, hn, ht => by
    rintro _ ⟨⟩
    obtain ⟨hnd, hnb⟩ := Nat.max_le.mp hn
    simp only [Item.tokens, List.forall_mem_cons, List.forall_mem_append] at ht
    refine Instruction.spelled_of_expr rfl ⟨d, rfl, hd, hnd, ht.2.1⟩ ?_
    exact List.forall_mem_append.mpr ⟨Nested.spelled body hb hnb ht.2.2, nofun⟩
  | .directive t line d, _, _, _ => by
    rintro _ ⟨⟩

theorem Nested.spelled {ts : List Token} {k : Keyword} : ∀ d : Nested, d.Grammatical k →
    d.nesting ≤ maxNesting → (∀ t ∈ d.tokens, t ∈ ts) → ∀ i ∈ d.instructions, i.Spelled ts
  | .mk newline b closing, ⟨_, hb, _⟩, hn, ht =>
    Block.spelled b hb hn fun t hmem =>
      ht t (List.mem_cons_of_mem newline (List.mem_append_left [closing] hmem))

theorem Block.spelled {ts : List Token} {atEnd : Prop} : ∀ b : Block, b.Grammatical atEnd →
    b.nesting ≤ maxNesting → (∀ t ∈ b.tokens, t ∈ ts) → ∀ i ∈ b.instructions, i.Spelled ts
  | .blank newlines, _, _, _ => by
    rintro _ ⟨⟩
  | .line newlines item lineEnd rest, ⟨_, hi, _, hr⟩, hn, ht => by
    obtain ⟨hni, hnr⟩ := Nat.max_le.mp hn
    simp only [Block.tokens, List.forall_mem_append] at ht
    obtain ⟨-, hti, -, htr⟩ := ht
    intro i hmem
    rcases List.mem_append.mp hmem with hmem | hmem
    · exact Item.spelled item hi hni hti i (Option.mem_toList.mp hmem)
    · exact Block.spelled rest hr hnr htr i hmem

end

/-- The expressions of a program that was read are those of phrases in the source. -/
theorem Program.spelled_of_ofSource (h : Program.ofSource source = .ok p) :
    ∃ ts, Token.ofSource source = .ok ts ∧ ∀ i ∈ p.instructions, i.Spelled ts := by
  obtain ⟨ts, c, hts, hc, hi, -⟩ := ofSource_eq_ok_iff.mp h
  obtain ⟨b, hb, rfl⟩ := (Content.ofTokens_eq_ok_iff_exists hts).mp hc
  refine ⟨ts, hts, hi ▸ ?_⟩
  exact Block.spelled b hb.grammatical hb.nesting fun t ht =>
    List.mem_of_mem_dropLast (hb.tokens ▸ ht)

end Pseudocode
