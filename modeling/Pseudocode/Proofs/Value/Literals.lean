import Pseudocode.Proofs.Expr.Reading
import Pseudocode.Proofs.Token.Literals
import Pseudocode.Proofs.Value.Input

/-! # Literals typed in

A literal means the same in a source and as an answer: what is typed in as the lexeme of a number or a truth value
is the value of the expression that its token is.
-/

namespace Pseudocode

open Lexer Decimal

variable {source : String} {t : Token} {ts rest : List Token} {e : Expr}

/-- The token is a number or a truth value, and no infinite decimal. -/
def TokenKind.IsConstant : TokenKind → Prop
  | .integer _ | .keyword .verdadero | .keyword .falso => True
  | .decimal d => isFinite d
  | _ => False

namespace Lexer.Lexed

theorem exists_digits {n : Int64} (h : Lexed t) (hn : t.kind = .integer n) :
    t.lexeme.toList ≠ [] ∧ (∀ c ∈ t.lexeme.toList, c.isDigit) ∧
      int64? (digitsValue t.lexeme.toList) = some n := by
  obtain ⟨c, cs, hc, hlexeme, hnumeral⟩ := h.exists_numeral (by rw [hn]; exact fun _ hc => hc)
  rw [hn] at hnumeral
  cases hnumeral with
  | integer hcs hvalue =>
    rw [hlexeme]
    exact ⟨List.cons_ne_nil c cs, List.forall_mem_cons.mpr ⟨hc, hcs⟩, hvalue⟩

theorem ofInput_integer {n : Int64} (h : Lexed t) (hn : t.kind = .integer n) :
    Value.ofInput t.lexeme = .integer n := by
  obtain ⟨hne, hdigits, hvalue⟩ := h.exists_digits hn
  apply Value.ofInput_of_parseNumber?
  rw [Text.trim_eq_self fun c hc => Text.not_isWhiteSpace_of_isDigit (hdigits c hc)]
  apply Value.parseNumber?_of_parseInt64?
  rw [parseInt64?, parseInt?_of_isDigit hne hdigits, Option.bind_some, hvalue]

theorem ofInput_decimal {d : Float} (h : Lexed t) (hd : t.kind = .decimal d) (hfinite : isFinite d) :
    Value.ofInput t.lexeme = .decimal d := by
  obtain ⟨whole, fraction, hpointed, hlexeme, rfl⟩ := h.exists_pointed hd
  obtain ⟨c, cs, hc, hcons⟩ := hpointed.exists_cons
  have hwhite : ∀ c ∈ t.lexeme.toList, ¬ Text.isWhiteSpace c := by
    rw [hlexeme]
    intro c hc
    rcases hpointed.isDigit_or c hc with hdigit | rfl
    · exact Text.not_isWhiteSpace_of_isDigit hdigit
    · decide
  apply Value.ofInput_of_parseNumber?
  rw [Text.trim_eq_self hwhite, hlexeme]
  apply Value.parseNumber?_of_parseDecimal?
  · exact parseInt?_of_mem (List.mem_append_right _ List.mem_cons_self)
  · exact Value.parseDecimal?_eq_some_iff.mpr
      ⟨hcons ▸ Value.looksNumeric_cons hc, hpointed.parseFloat?, hfinite⟩

theorem ofInput_verdadero (h : Lexed t) (hk : t.kind = .keyword .verdadero) :
    Value.ofInput t.lexeme = .boolean true := by
  have hword := h.ofWord?_of_keyword hk
  unfold Keyword.ofWord? at hword
  split at hword <;> cases hword
  case h_15 heq => rw [heq]; rfl

theorem ofInput_falso (h : Lexed t) (hk : t.kind = .keyword .falso) :
    Value.ofInput t.lexeme = .boolean false := by
  have hword := h.ofWord?_of_keyword hk
  unfold Keyword.ofWord? at hword
  split at hword <;> cases hword
  case h_16 heq => rw [heq]; rfl

theorem exists_value (h : Lexed t) (hk : t.kind.IsConstant) :
    ∃ v, Expr.ofToken? t.kind = some (.literal v) ∧ Value.ofInput t.lexeme = v := by
  cases hkind : t.kind with
  | integer n => exact ⟨.integer n, rfl, h.ofInput_integer hkind⟩
  | decimal d =>
    rw [hkind] at hk
    exact ⟨.decimal d, rfl, h.ofInput_decimal hkind hk⟩
  | keyword w =>
    rw [hkind] at hk
    cases w with
    | verdadero => exact ⟨.boolean true, rfl, h.ofInput_verdadero hkind⟩
    | falso => exact ⟨.boolean false, rfl, h.ofInput_falso hkind⟩
    | _ => exact hk.elim
  | _ =>
    rw [hkind] at hk
    exact hk.elim

end Lexer.Lexed

theorem Expr.ofTokens_of_ofToken? (h : Expr.ofToken? t.kind = some e)
    (hrest : ∀ u ∈ rest.head?, BinaryOp.ofToken? u.kind = none) : Expr.ofTokens (t :: rest) = .ok (e, 1) := by
  have hstops : Stops 1 rest := by
    intro u hu op hop
    rw [hrest u hu] at hop
    cases hop
  have hfront : Phrase.Front maxNesting 1 (.atom t e) (t :: rest) rest :=
    ⟨h, Nat.zero_le _, Phrase.one_le_level _, rfl, hstops⟩
  obtain ⟨hlt, hread⟩ : Reads (read (lastSpan (t :: rest)) (t :: rest)) e rest :=
    read_iff_front.mpr ⟨_, hfront, rfl⟩
  rw [ofTokens, hread]
  change Except.ok (e, (t :: rest).length - rest.length) = _
  rw [List.length_cons, Nat.add_sub_cancel_left]

/-- A constant of a source is read as a literal, unless a binary operator follows, and the value of the literal is
what the lexeme is read as when it is typed in. -/
theorem Value.ofInput_lexeme (h : Token.ofSource source = .ok ts) (ht : t ∈ ts) (hk : t.kind.IsConstant)
    (hrest : ∀ u ∈ rest.head?, BinaryOp.ofToken? u.kind = none) :
    ∃ v, Expr.ofTokens (t :: rest) = .ok (.literal v, 1) ∧
      ∀ env, (Expr.literal v).eval env = .ok (Value.ofInput t.lexeme) := by
  rcases Token.lexed_of_ofSource h t ht with heof | hlexed
  · rw [heof] at hk
    cases hk
  · obtain ⟨v, hv, hinput⟩ := hlexed.exists_value hk
    exact ⟨v, Expr.ofTokens_of_ofToken? hv hrest, fun _ => congrArg Except.ok hinput.symm⟩

theorem Value.ofInput_lexeme_zeros : ∃ t eof v, Token.ofSource "007.50" = .ok [t, eof] ∧
    t.kind.IsConstant ∧ Expr.ofTokens [t, eof] = .ok (.literal v, 1) ∧
      ∀ env, (Expr.literal v).eval env = .ok (Value.ofInput t.lexeme) := by
  have hpointed : Pointed ['0', '0', '7'] ['5', '0'] :=
    ⟨List.cons_ne_nil _ _, List.cons_ne_nil _ _, List.all_eq_true.mp rfl, List.all_eq_true.mp rfl⟩
  have hsource : "007.50" = String.ofList (['0', '0', '7'] ++ '.' :: ['5', '0']) := by decide
  obtain ⟨t, eof, h, hk, heof⟩ := hsource ▸ Token.readsAs_pointed hpointed
  have hconstant : t.kind.IsConstant := by
    rw [hk]
    exact (by decide +kernel : isFinite (pointDigits ['0', '0', '7'] ['5', '0']).toFloat = true)
  have hrest : ∀ u ∈ [eof].head?, BinaryOp.ofToken? u.kind = none := by
    rintro _ ⟨⟩
    rw [heof]
    rfl
  obtain ⟨v, hread, heval⟩ := Value.ofInput_lexeme h List.mem_cons_self hconstant hrest
  exact ⟨t, eof, v, h, hconstant, hread, heval⟩

end Pseudocode
