import Mathlib
import Pseudocode.Proofs.Instruction.Reading
import Pseudocode.Proofs.Token.Spelling

/-! # Accepted programs

The tokens of a source are read as a program just if those before the end of input have a derivation.
There is one derivation at most, and the program is what it derives.
-/

namespace Pseudocode

variable {ts us rest : List Token} {t : Token} {k : Keyword}

theorem Phrase.Grammatical.ne_endOfInput {d : Phrase} (h : d.Grammatical) :
    ∀ t ∈ d.tokens, t.kind ≠ .endOfInput :=
  fun t ht => (Directive.onLine_iff.mp (Directive.onLine_of_phrase h t ht)).2

mutual

theorem Item.ne_endOfInput : ∀ item : Item, item.Grammatical →
    ∀ t ∈ item.tokens, t.kind ≠ .endOfInput
  | .assign t name equal d, ⟨ht, he, hd⟩ => by
    have := hd.ne_endOfInput
    simp_all [Item.tokens]
  | .display t d, ⟨ht, hd⟩ => by
    have := hd.ne_endOfInput
    simp_all [Item.tokens]
  | .input t target name, ⟨ht, hk⟩ => by simp [Item.tokens, ht, hk]
  | .branch t d body, ⟨ht, hd, hb⟩ => by
    have := hd.ne_endOfInput
    have := Nested.ne_endOfInput body hb
    simp_all [Item.tokens, or_imp]
  | .branchElse t d body otherwise, ⟨ht, hd, hb, ho⟩ => by
    have := hd.ne_endOfInput
    have := Nested.ne_endOfInput body hb
    have := Nested.ne_endOfInput otherwise ho
    simp_all [Item.tokens, or_imp]
  | .loop t d body, ⟨ht, hd, hb⟩ => by
    have := hd.ne_endOfInput
    have := Nested.ne_endOfInput body hb
    simp_all [Item.tokens, or_imp]
  | .directive t line d, ⟨ht, _, hd⟩ => by
    have := fun t ht => (Directive.onLine_iff.mp (Directive.onLine_of_read hd t ht)).2
    simp_all [Item.tokens]

theorem Nested.ne_endOfInput {k : Keyword} : ∀ d : Nested, d.Grammatical k →
    ∀ t ∈ d.tokens, t.kind ≠ .endOfInput
  | .mk newline b closing, ⟨hn, hb, hc⟩ => by
    have := Block.ne_endOfInput b hb
    simp_all [Nested.tokens, or_imp]

theorem Block.ne_endOfInput {atEnd : Prop} : ∀ b : Block, b.Grammatical atEnd →
    ∀ t ∈ b.tokens, t.kind ≠ .endOfInput
  | .blank newlines, h => by
    intro t ht
    simp [h t ht]
  | .line newlines item lineEnd rest, ⟨hn, hi, hl, hr⟩ => by
    have := Item.ne_endOfInput item hi
    have := Block.ne_endOfInput rest hr
    have : ∀ t ∈ lineEnd.toList, t.kind ≠ .endOfInput := by
      cases lineEnd with
      | none => simp
      | some u => simp [show u.kind = .newline from hl]
    have : ∀ t ∈ newlines, t.kind ≠ .endOfInput := fun t ht => by simp [hn t ht]
    simp_all [Block.tokens, or_imp]

end

theorem eq_of_append_endOfInput {vs : List Token} (ht : t.kind = .endOfInput)
    (hts : ∀ u ∈ ts, u.kind ≠ .endOfInput) (hvs : ∀ u ∈ vs, u.kind ≠ .endOfInput) (hrest : AtEnd rest)
    (h : vs ++ rest = ts ++ [t]) : vs = ts ∧ rest = [t] := by
  induction vs generalizing ts with
  | nil =>
    cases ts with
    | nil => exact ⟨rfl, h⟩
    | cons u ts =>
      rw [List.nil_append] at h
      exact absurd (hrest u (by simp [h])) (hts u (by simp))
  | cons v vs ih =>
    cases ts with
    | nil =>
      obtain ⟨rfl, -⟩ := List.cons.inj h
      exact absurd ht (hvs v (by simp))
    | cons u ts =>
      obtain ⟨rfl, htail⟩ := List.cons.inj h
      obtain ⟨rfl, rfl⟩ := ih (fun w hw => hts w (by simp [hw])) (fun w hw => hvs w (by simp [hw]))
        htail
      exact ⟨rfl, rfl⟩

theorem Block.derives_iff_front {b : Block} (ht : t.kind = .endOfInput)
    (hts : ∀ u ∈ ts, u.kind ≠ .endOfInput) :
    b.Derives ts ↔ ∃ rest, AtEnd rest ∧ b.Front (maxNesting + 1) (ts ++ [t]) rest := by
  constructor
  · rintro ⟨hg, rfl, hd, hn⟩
    have hend : AtEnd [t] := atEnd_singleton ht
    exact ⟨[t], hend, by rwa [eq_true hend], Nat.lt_succ_of_le hd, hn, rfl, hend.endsSection⟩
  · rintro ⟨rest, hend, hg, hd, hn, htok, -⟩
    obtain ⟨rfl, rfl⟩ := eq_of_append_endOfInput ht hts (Block.ne_endOfInput b hg) hend htok
    exact ⟨by rwa [eq_true hend] at hg, rfl, Nat.le_of_lt_succ hd, hn⟩

/-- What the reader makes of the tokens of a source is the content of a derivation. -/
theorem Content.ofTokens_eq_ok_iff_exists {source : String} (h : Token.ofSource source = .ok ts)
    {c : Content} :
    Content.ofTokens ts = .ok c ↔ ∃ b : Block, b.Derives ts.dropLast ∧ b.content = c := by
  obtain ⟨us, t, rfl, ht, hus⟩ := Token.exists_append_of_ofSource h
  rw [List.dropLast_concat, Content.ofTokens_eq_ok_iff]
  constructor
  · rintro ⟨rest, hend, b, hb, rfl⟩
    exact ⟨b, (Block.derives_iff_front ht hus).mpr ⟨rest, hend, hb⟩, rfl⟩
  · rintro ⟨b, hb, rfl⟩
    obtain ⟨rest, hend, hb⟩ := (Block.derives_iff_front ht hus).mp hb
    exact ⟨rest, hend, b, hb, rfl⟩

/-- The reader accepts just the tokens that have a derivation, and returns its instructions and its
directives; the derivation is the only one. -/
theorem Content.ofTokens_eq_ok_iff_derives {source : String} (h : Token.ofSource source = .ok ts) :
    (∀ c, Content.ofTokens ts = .ok c ↔
      ∃ b : Block, b.Derives ts.dropLast ∧ c = ⟨b.instructions, b.directives⟩) ∧
    ∀ b b' : Block, b.Derives ts.dropLast → b'.Derives ts.dropLast → b = b' := by
  constructor
  · intro c
    rw [Content.ofTokens_eq_ok_iff_exists h]
    simp only [Block.content, eq_comm]
  · obtain ⟨us, t, rfl, ht, hus⟩ := Token.exists_append_of_ofSource h
    rw [List.dropLast_concat]
    intro b b' hb hb'
    obtain ⟨rest, -, hb⟩ := (Block.derives_iff_front ht hus).mp hb
    obtain ⟨rest', -, hb'⟩ := (Block.derives_iff_front ht hus).mp hb'
    exact (hb.unique hb').1

theorem Content.derives_branch : ∃ ts, Token.ofSource "SI x\nLEER x\nFINSI" = .ok ts ∧
    ∃ b : Block, b.Derives ts.dropLast ∧ b.directives = [] ∧
      b.instructions = [.branch (.var "x") [.input "x" 2] none 1] ∧
      ∀ b' : Block, b'.Derives ts.dropLast → b' = b := by
  have h : Token.ofSource "SI x\nLEER x\nFINSI" = .ok [
      ⟨.keyword .si, "SI", ⟨1, 1, 0, 2⟩⟩, ⟨.identifier "x", "x", ⟨1, 4, 3, 4⟩⟩,
      ⟨.newline, "\n", ⟨1, 5, 4, 5⟩⟩, ⟨.keyword .leer, "LEER", ⟨2, 1, 5, 9⟩⟩,
      ⟨.identifier "x", "x", ⟨2, 6, 10, 11⟩⟩, ⟨.newline, "\n", ⟨2, 7, 11, 12⟩⟩,
      ⟨.keyword .finSi, "FINSI", ⟨3, 1, 12, 17⟩⟩, ⟨.endOfInput, "", ⟨3, 6, 17, 17⟩⟩] := by
    cbv
  obtain ⟨haccepts, hunique⟩ := Content.ofTokens_eq_ok_iff_derives h
  obtain ⟨b, hb, hc⟩ := (haccepts ⟨[.branch (.var "x") [.input "x" 2] none 1], []⟩).mp (by cbv)
  obtain ⟨hi, hd⟩ := Content.mk.inj hc
  exact ⟨_, h, b, hb, hd.symm, hi.symm, fun b' hb' => hunique b' b hb' hb⟩

end Pseudocode
