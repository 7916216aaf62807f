import Pseudocode.Proofs.Program.Offences
import Pseudocode.Proofs.Token.Single

/-! # The names of variables

Validation asks of a target that it is a word. The lexer reads a word as an identifier, unless it is a
keyword: the targets that validation lets pass are the identifiers and the keywords.
-/

namespace Pseudocode

namespace Instruction

variable {x : String} {e : Expr} {depth line : Nat}

theorem wellFormed_assign_iff :
    (assign x e line).WellFormed depth ↔ Text.isWord x.toList := by
  constructor
  · intro h
    exact h.target (by simp [assign])
  · intro h
    exact offence?_eq_none_iff.mp (offence?_assign h)

theorem wellFormed_input_iff : (input x line).WellFormed depth ↔ Text.isWord x.toList := by
  constructor
  · intro h
    exact h.target (by simp [input])
  · intro h
    exact offence?_eq_none_iff.mp (offence?_input h)

end Instruction

namespace Program

variable {i : Instruction}

theorem exists_ofParts_singleton (hbelow : ∀ path, errorBelow? path i = none) :
    (∃ p, ofParts [i] [] = .ok p) ↔ i.WellFormed 0 := by
  have hfirst : checkInstructions [i] = none ↔ errorAt? (Path.root.child 1) i = none := by
    rw [checkInstructions, errorFrom?, hbelow, errorFrom?]
    simp
  rw [exists_ofParts_iff, hfirst, errorAt?_eq_none_iff]
  exact and_iff_left ⟨[], rfl⟩

/-- Whether a word is the name of a variable is decided in two places. An assignment and an input are
accepted just if the lexer reads their target as one identifier, or the target is a keyword, which it does
not; and the programs that are accepted have no other targets. -/
theorem accepts_target_iff (x : String) (e : Expr) (line : Nat) :
    ((∃ p, ofParts [.assign x e line] [] = .ok p) ↔
      Token.ReadsAs x (.identifier x) ∨ (Keyword.ofWord? x).isSome) ∧
    ((∃ p, ofParts [.input x line] [] = .ok p) ↔
      Token.ReadsAs x (.identifier x) ∨ (Keyword.ofWord? x).isSome) ∧
    ((Keyword.ofWord? x).isSome → ¬ Token.ReadsAs x (.identifier x)) ∧
    ∀ (p : Program) (path : Path) (i : Instruction), p.find? path = some i →
      i.kind ∈ [.assign, .input] → i.argument = x →
        Token.ReadsAs x (.identifier x) ∨ (Keyword.ofWord? x).isSome := by
  refine ⟨?_, ?_, fun hx h => ?_, fun p path i hi hk hx => ?_⟩
  · rw [exists_ofParts_singleton fun _ => rfl, Instruction.wellFormed_assign_iff, Token.isWord_iff]
  · rw [exists_ofParts_singleton fun _ => rfl, Instruction.wellFormed_input_iff, Token.isWord_iff]
  · rw [(Token.readsAs_identifier_iff.mp h).2] at hx
    cases hx
  · have hall := checkInstructions_eq_none_iff.mp p.instructions_valid
    have hword := (hall path i hi).target hk
    rw [hx] at hword
    exact Token.isWord_iff.mp hword

/-- The keyword `SI` passes as the target of an assignment, which then cannot be written down. -/
theorem accepts_target_keyword : (∃ p, ofParts [.assign "SI" (.literal (.integer 1)) 0] [] = .ok p) ∧
    ¬ Token.ReadsAs "SI" (.identifier "SI") := by
  refine ⟨exists_ofParts_iff.mpr ⟨by decide, [], rfl⟩, fun h => ?_⟩
  cases (Token.readsAs_identifier_iff.mp h).2

end Program
end Pseudocode
