import Pseudocode.Proofs.Token.Lexemes

/-! # Texts that are one token

The lexer reads a word, and nothing else, as one identifier or one keyword.
-/

namespace Pseudocode

namespace Token

open Lexer

variable {source : String} {k k' : TokenKind}

/-- The lexer reads the text as one token of the given kind, and then the end of input. -/
def ReadsAs (source : String) (k : TokenKind) : Prop :=
  ∃ t eof, Token.ofSource source = .ok [t, eof] ∧ t.kind = k ∧ eof.kind = .endOfInput

theorem readsAs_iff : ReadsAs source k ↔ Spells source.toList [k, .endOfInput] := by
  rw [← ofSource_eq_ok_iff]
  constructor
  · rintro ⟨t, eof, h, rfl, heof⟩
    exact ⟨[t, eof], h, by rw [← heof]; rfl⟩
  · rintro ⟨ts, h, hks⟩
    obtain ⟨t, ts, rfl, ht, hts⟩ := List.map_eq_cons_iff.mp hks
    obtain ⟨eof, ts, rfl, heof, hts⟩ := List.map_eq_cons_iff.mp hts
    obtain rfl := List.map_eq_nil_iff.mp hts
    exact ⟨t, eof, h, ht, heof⟩

theorem readsAs_of_writes (h : Writes source.toList [k]) : ReadsAs source k :=
  readsAs_iff.mpr h.spells

theorem ReadsAs.unique (h : ReadsAs source k) (h' : ReadsAs source k') : k = k' := by
  obtain ⟨t, eof, ht, rfl, -⟩ := h
  obtain ⟨t', eof', ht', rfl, -⟩ := h'
  rw [ht] at ht'
  cases ht'
  rfl

/-! ## Words -/

theorem readsAs_word (h : Text.isWord source.toList) : ReadsAs source (wordKind source) := by
  have hwrites := writes_word h
  rw [String.ofList_toList] at hwrites
  exact readsAs_of_writes hwrites

theorem isWord_of_ofWord? {w : Keyword} (h : Keyword.ofWord? source = some w) :
    Text.isWord source.toList := by
  unfold Keyword.ofWord? at h
  split at h
  case h_17 => cases h
  all_goals decide

/-- The lexer reads a text as one identifier that holds all of it just if the text is a word and no
keyword. -/
theorem readsAs_identifier_iff : ReadsAs source (.identifier source) ↔
    Text.isWord source.toList ∧ Keyword.ofWord? source = none := by
  constructor
  · intro h
    exact (readsAs_iff.mp h).plain _ List.mem_cons_self nofun
  · rintro ⟨hword, hnone⟩
    have h := readsAs_word hword
    rwa [wordKind, hnone] at h

theorem isWord_iff : Text.isWord source.toList ↔
    ReadsAs source (.identifier source) ∨ (Keyword.ofWord? source).isSome := by
  rw [readsAs_identifier_iff]
  constructor
  · intro h
    cases hw : Keyword.ofWord? source with
    | none => exact .inl ⟨h, rfl⟩
    | some w => exact .inr rfl
  · rintro (⟨h, -⟩ | h)
    · exact h
    · obtain ⟨w, hw⟩ := Option.isSome_iff_exists.mp h
      exact isWord_of_ofWord? hw

end Token
end Pseudocode
