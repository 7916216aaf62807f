import Pseudocode.Proofs.Expr.Printing

/-! # Where the nodes of a tree stand in its text

Each node of a tree has a symbol in the text: the literal, the name or the operator. From left to right these
symbols are the nodes in the order of a traversal from the left operand over the operator to the right one, and
no two of them overlap.
-/

namespace Pseudocode

namespace Expr

/-- What a node is written as, apart from its operands. -/
def symbol : Expr → String
  | .literal v => v.literal
  | .var x => x
  | .unary op _ => op.symbol
  | .binary _ op _ => op.symbol

/-- The nodes of a tree: an operator stands between its operands, or before the only one. -/
def inorder : Expr → List Expr
  | .literal v => [.literal v]
  | .var x => [.var x]
  | .unary op e => .unary op e :: e.inorder
  | .binary l op r => l.inorder ++ .binary l op r :: r.inorder

def isLeaf : Expr → Bool
  | .literal _ | .var _ => true
  | _ => false

/-- The nodes with the columns of their symbols, where the text begins in `column`. -/
def placesFrom (column : Nat) : Expr → List (Expr × Nat)
  | .literal v => [(.literal v, column)]
  | .var x => [(.var x, column)]
  | .unary op e => (.unary op e, column) :: e.placesFrom (column + op.lead.length + e.isBinary.toNat)
  | .binary l op r =>
    let left := parenthesize (l.needsParens op.precedence false) l.render ++ " "
    l.placesFrom (column + (l.needsParens op.precedence false).toNat) ++
      (.binary l op r, column + left.length) ::
        r.placesFrom (column + (left ++ op.symbol ++ " ").length +
          (r.needsParens op.precedence true).toNat)

variable {e : Expr} {s : String} {column : Nat} {place : Expr × Nat}

theorem map_fst_placesFrom (e : Expr) (column : Nat) : (e.placesFrom column).map Prod.fst = e.inorder := by
  induction e generalizing column with
  | literal v => rfl
  | var x => rfl
  | unary op e ih => rw [placesFrom, List.map_cons, ih, inorder]
  | binary l op r ihl ihr => rw [placesFrom, List.map_append, List.map_cons, ihl, ihr, inorder]

/-! ## Symbols in the text -/

/-- The symbol of the node stands at its place in the text, which begins in `column`. -/
def Marks (s : String) (column : Nat) (place : Expr × Nat) : Prop :=
  ∃ before after, s = before ++ place.1.symbol ++ after ∧ place.2 = column + before.length

theorem marks_symbol (n : Expr) (column : Nat) : Marks n.symbol column (n, column) :=
  ⟨"", "", by rw [String.empty_append, String.append_empty], rfl⟩

namespace Marks

theorem append_left (before : String) (h : Marks s (column + before.length) place) :
    Marks (before ++ s) column place := by
  obtain ⟨b, a, rfl, hk⟩ := h
  refine ⟨before ++ b, a, ?_, ?_⟩
  · simp only [String.append_assoc]
  · rw [hk, String.length_append, Nat.add_assoc]

theorem append_right (h : Marks s column place) (after : String) : Marks (s ++ after) column place := by
  obtain ⟨b, a, rfl, hk⟩ := h
  exact ⟨b, a ++ after, String.append_assoc, hk⟩

theorem parenthesize {needed : Bool} (h : Marks s (column + needed.toNat) place) :
    Marks (Expr.parenthesize needed s) column place := by
  cases needed with
  | false => exact h
  | true => exact (h.append_left "(").append_right ")"

theorem le (h : Marks s column place) :
    column ≤ place.2 ∧ place.2 + place.1.symbol.length ≤ column + s.length := by
  obtain ⟨before, after, rfl, hk⟩ := h
  simp only [String.length_append]
  omega

end Marks

theorem exists_lead (op : UnaryOp) : ∃ gap, op.lead = op.symbol ++ gap := by
  cases op with
  | negate => exact ⟨"", rfl⟩
  | not => exact ⟨" ", rfl⟩

/-- The text of a tree has the symbols of its nodes, each one at its place. -/
theorem marks_of_mem_placesFrom (h : place ∈ e.placesFrom column) : Marks e.render column place := by
  induction e generalizing column with
  | literal v =>
    obtain rfl := List.mem_singleton.mp h
    exact marks_symbol (.literal v) column
  | var x =>
    obtain rfl := List.mem_singleton.mp h
    exact marks_symbol (.var x) column
  | unary op e ih =>
    rcases List.mem_cons.mp h with rfl | h
    · obtain ⟨gap, hgap⟩ := exists_lead op
      rw [render, hgap]
      exact ((marks_symbol (.unary op e) column).append_right gap).append_right _
    · exact (ih h).parenthesize.append_left op.lead
  | binary l op r ihl ihr =>
    rcases List.mem_append.mp h with h | h
    · exact ((((ihl h).parenthesize.append_right " ").append_right op.symbol).append_right " ").append_right _
    rcases List.mem_cons.mp h with rfl | h
    · exact (((marks_symbol (.binary l op r) _).append_left _).append_right " ").append_right _
    · exact (ihr h).parenthesize.append_left _

theorem pairwise_placesFrom (e : Expr) (column : Nat) :
    (e.placesFrom column).Pairwise fun a b => a.2 + a.1.symbol.length ≤ b.2 := by
  induction e generalizing column with
  | literal v => exact List.pairwise_singleton ..
  | var x => exact List.pairwise_singleton ..
  | unary op e ih =>
    refine List.pairwise_cons.mpr ⟨fun place hplace => ?_, ih _⟩
    obtain ⟨gap, hgap⟩ := exists_lead op
    have hle := (marks_of_mem_placesFrom hplace).le.1
    rw [hgap, String.length_append] at hle
    simp only [symbol]
    omega
  | binary l op r ihl ihr =>
    -- the symbols on the left end before the operator, and the operator before those on the right
    refine List.pairwise_append.mpr ⟨ihl _, List.pairwise_cons.mpr ⟨fun b hb => ?_, ihr _⟩, ?_⟩
    · have hb := (marks_of_mem_placesFrom hb).le.1
      simp only [String.length_append, symbol] at hb ⊢
      omega
    · intro a ha b hb
      have ha := (marks_of_mem_placesFrom ha).parenthesize.le.2
      rcases List.mem_cons.mp hb with rfl | hb
      · simp only [String.length_append]
        omega
      · have hb := (marks_of_mem_placesFrom hb).le.1
        simp only [String.length_append] at hb
        omega

end Expr

/-! ## Nodes without operands -/

theorem Phrase.Grammatical.exists_token {d : Phrase} (h : d.Grammatical) :
    ∀ n ∈ d.expr.inorder, n.isLeaf → ∃ t ∈ d.tokens, Expr.ofToken? t.kind = some n := by
  induction d with
  | atom t e =>
    intro n hn _
    have hsingle : e.inorder = [e] := by
      obtain ⟨v, -, rfl⟩ | ⟨x, -, rfl⟩ := Expr.ofToken?_cases h <;> rfl
    obtain rfl := List.mem_singleton.mp (hsingle ▸ hn)
    exact ⟨t, List.mem_cons_self, h⟩
  | unary t op d ih =>
    intro n hn hleaf
    rcases List.mem_cons.mp hn with rfl | hn
    · cases hleaf
    · obtain ⟨u, hu, hu'⟩ := ih h.2.2 n hn hleaf
      exact ⟨u, List.mem_cons_of_mem t hu, hu'⟩
  | group o d c ih =>
    intro n hn hleaf
    obtain ⟨u, hu, hu'⟩ := ih h.2.2 n hn hleaf
    exact ⟨u, List.mem_cons_of_mem o (List.mem_append_left [c] hu), hu'⟩
  | binary l t op r ihl ihr =>
    intro n hn hleaf
    obtain ⟨-, -, -, hl, hr⟩ := h
    rcases List.mem_append.mp hn with hn | hn
    · obtain ⟨u, hu, hu'⟩ := ihl hl n hn hleaf
      exact ⟨u, List.mem_append_left _ hu, hu'⟩
    rcases List.mem_cons.mp hn with rfl | hn
    · cases hleaf
    · obtain ⟨u, hu, hu'⟩ := ihr hr n hn hleaf
      exact ⟨u, List.mem_append_right _ (List.mem_cons_of_mem t hu), hu'⟩

end Pseudocode
