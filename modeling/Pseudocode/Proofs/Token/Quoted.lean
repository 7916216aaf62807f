import Pseudocode.Proofs.Token.Relexing
import Pseudocode.Proofs.Token.Single

/-! # Quoted texts

Quoting a text and reading a text literal undo each other. A text without line breaks is read back from its
literal, and the literal of a text that was read is its lexeme. Quotes inside a literal come in pairs, so a
line break is reached before any quote that stands alone, and leaves the literal open.
-/

namespace Pseudocode

namespace Lexer

variable {cs rest : List Char}

theorem textBody_eq_none (h : '\n' ∈ cs) : textBody (Text.doubleQuotes cs ++ rest) = none := by
  induction cs with
  | nil => cases h
  | cons c cs ih =>
    rw [Text.doubleQuotes]
    split
    case isTrue hquote =>
      subst hquote
      have hcs : '\n' ∈ cs := by simpa using h
      rw [List.cons_append, List.cons_append, textBody, ih hcs, Option.map_none]
    case isFalse hquote =>
      rw [List.cons_append]
      rcases List.mem_cons.mp h with rfl | hcs
      · rw [textBody]
      · by_cases hbreak : c = '\n'
        · subst hbreak
          rw [textBody]
        · rw [textBody, ih hcs, Option.map_none]
          · exact fun _ heq _ => hquote heq
          · exact hquote
          · exact hbreak

theorem Lexed.lexeme_of_text {t : Token} {v : String} (h : Lexed t) (hk : t.kind = .text v) :
    t.lexeme = Text.quote v := by
  obtain ⟨c, cs, rest, hlexeme, -, -, hfront⟩ := h
  obtain rfl : c = '"' := by
    have hbegins := begins_of_front hfront
    rwa [hk] at hbegins
  rw [hk, front, if_neg (by decide), if_pos rfl] at hfront
  obtain ⟨body, hv, hbody⟩ := text_cases hfront
  obtain rfl := TokenKind.text.inj hv
  have hcs : cs = Text.doubleQuotes body ++ ['"'] := by
    rw [← take_of_textBody hbody, List.take_left]
  rw [← String.toList_inj, hlexeme, hcs, Text.quote, String.toList_ofList, String.toList_ofList]
  rfl

end Lexer

namespace Token

open Lexer

variable {s lexeme v : String}

/-- The literal of a text that breaks the line is refused where it begins. -/
theorem ofSource_quote_of_mem (h : '\n' ∈ s.toList) :
    Token.ofSource (Text.quote s) = .error (.unterminatedText 1 1) := by
  have htext : text (Text.doubleQuotes s.toList ++ ['"']) = .error .unterminatedText := by
    rw [text, textBody_eq_none h]
  have hfront : front '"' (Text.doubleQuotes s.toList ++ ['"']) = .error .unterminatedText := by
    rw [front, if_neg (by decide), if_pos rfl, htext]
  have hscan : Token.scan (Text.quote s) = ([], some (.unterminatedText 1 1)) := by
    rw [Token.scan, Text.quote, String.toList_ofList, List.cons_append, Lexer.scan,
      if_neg (by decide), if_neg (by simp), hfront]
    rfl
  rw [Token.ofSource, hscan]

/-- The literal of a text is read as that text just if the text does not break the line. -/
theorem readsAs_quote_iff : ReadsAs (Text.quote s) (.text s) ↔ '\n' ∉ s.toList := by
  constructor
  · rintro ⟨t, eof, h, -⟩ hmem
    rw [ofSource_quote_of_mem hmem] at h
    cases h
  · exact fun h => readsAs_of_writes (writes_text h)

/-- In some source the literal `lexeme` stands for the text `v`. -/
def Denotes (lexeme v : String) : Prop :=
  ∃ source ts t, Token.ofSource source = .ok ts ∧ t ∈ ts ∧ t.lexeme = lexeme ∧ t.kind = .text v

theorem denotes_iff : Denotes lexeme v ↔ lexeme = Text.quote v ∧ '\n' ∉ v.toList := by
  constructor
  · rintro ⟨source, ts, t, h, ht, rfl, hk⟩
    rcases lexed_of_ofSource h t ht with heof | hlexed
    · rw [heof] at hk
      cases hk
    · have hplain := (spells_of_ofSource h).plain t.kind (List.mem_map_of_mem ht)
      rw [hk] at hplain
      exact ⟨hlexed.lexeme_of_text hk, hplain nofun⟩
  · rintro ⟨rfl, hv⟩
    obtain ⟨t, eof, h, hk, -⟩ := readsAs_quote_iff.mpr hv
    rcases lexed_of_ofSource h t List.mem_cons_self with heof | hlexed
    · rw [heof] at hk
      cases hk
    · exact ⟨_, _, t, h, List.mem_cons_self, hlexed.lexeme_of_text hk, hk⟩

/-- Quoting and reading are inverse. The literal of a text is read as one token that holds the text just if
the text does not break the line, and else it is refused as unterminated at its first character. Every
literal of a source is that of the text it stands for, so that one text has one literal. -/
theorem quote_inverse :
    (∀ s, (ReadsAs (Text.quote s) (.text s) ↔ '\n' ∉ s.toList) ∧
      ('\n' ∈ s.toList → Token.ofSource (Text.quote s) = .error (.unterminatedText 1 1))) ∧
    (∀ source ts t v, Token.ofSource source = .ok ts → t ∈ ts → t.kind = .text v →
      Text.quote v = t.lexeme) ∧
    ∀ lexeme lexeme' v, Denotes lexeme v → Denotes lexeme' v → lexeme = lexeme' := by
  refine ⟨fun s => ⟨readsAs_quote_iff, ofSource_quote_of_mem⟩, ?_, ?_⟩
  · intro source ts t v h ht hk
    exact (denotes_iff.mp ⟨source, ts, t, h, ht, rfl, hk⟩).1.symm
  · intro lexeme lexeme' v h h'
    exact (denotes_iff.mp h).1.trans (denotes_iff.mp h').1.symm

end Token
end Pseudocode
