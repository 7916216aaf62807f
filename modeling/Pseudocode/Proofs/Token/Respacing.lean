import Pseudocode.Proofs.Token.Relexing

/-! # Tokens set apart by blanks

No token goes on over a blank. The lexemes of a source, with blanks after each of them, are therefore the
lexemes of the same tokens, whatever stood between them in the source: how much space there is between two
tokens, and whether a comment stands there, is of no account.
-/

namespace Pseudocode

namespace Lexer

variable {c : Char} {cs rest : List Char} {ps : List (TokenKind × String)} {ts : List Token}
  {gaps : List String}

theorem not_isWordChar_of_isBlank (h : Text.isBlank c) : ¬ Text.isWordChar c := by
  simp only [Text.isBlank, Bool.or_eq_true, beq_iff_eq] at h
  rcases h with (rfl | rfl) | rfl <;> decide

theorem apart_of_isBlank (h : Text.isBlank c) (k : TokenKind) : Apart k (c :: rest) := by
  have hword : ∀ d ∈ (c :: rest).head?, ¬ Text.isWordChar d := by
    rintro _ ⟨⟩
    exact not_isWordChar_of_isBlank h
  have hdigit : ∀ d ∈ (c :: rest).head?, ¬ d.isDigit := by
    rintro _ ⟨⟩ hd
    exact not_isBlank_of_isDigit hd h
  have hne : ∀ m, Text.isBlank m = false → c ≠ m := by
    rintro m hm rfl
    rw [h] at hm
    cases hm
  cases k with
  | integer n =>
    refine ⟨hdigit, ?_⟩
    rw [fractionLength]
    rintro ds ⟨⟩
    exact hne '.' (by decide) rfl
  | decimal d => exact hdigit
  | text s =>
    rintro _ ⟨⟩
    exact hne '"' (by decide)
  | keyword w => exact hword
  | identifier x => exact hword
  | directive => exact hword
  | symbol s =>
    cases s with
    | less =>
      rintro _ ⟨⟩
      exact ⟨hne '=' (by decide), hne '>' (by decide)⟩
    | greater =>
      rintro _ ⟨⟩
      exact hne '=' (by decide)
    | _ => trivial
  | newline => trivial
  | endOfInput => trivial

theorem Scans.blanks (hcs : ∀ c ∈ cs, Text.isBlank c) (h : Scans rest ps) :
    Scans (cs ++ rest) ps := by
  induction cs with
  | nil => exact h
  | cons c cs ih =>
    rw [List.forall_mem_cons] at hcs
    exact (ih hcs.2).blank hcs.1

def IsGap (gap : String) : Prop :=
  gap ≠ "" ∧ ∀ c ∈ gap.toList, Text.isBlank c

theorem IsGap.apart {gap : String} (h : IsGap gap) (k : TokenKind) : Apart k (gap.toList ++ rest) := by
  obtain ⟨c, cs, hc⟩ := List.exists_cons_of_ne_nil (mt String.toList_eq_nil_iff.mp h.1)
  have hblank := h.2 c (by rw [hc]; exact List.mem_cons_self)
  rw [hc, List.cons_append]
  exact apart_of_isBlank hblank k

end Lexer

def Token.respaced (ts : List Token) (gaps : List String) : String :=
  String.join (List.zipWith (fun t gap => t.lexeme ++ gap) ts gaps)

open Lexer in
theorem Token.scans_respaced {ts : List Token} {gaps : List String} (hts : ∀ t ∈ ts, Lexed t)
    (hlength : gaps.length = ts.length) (hgaps : ∀ gap ∈ gaps, IsGap gap) :
    Scans (Token.respaced ts gaps).toList (ts.map Token.spelled ++ [(.endOfInput, "")]) := by
  induction ts generalizing gaps with
  | nil =>
    rw [Token.respaced, List.zipWith_nil_left]
    exact scans_nil
  | cons t ts ih =>
    obtain ⟨gap, gaps, rfl⟩ := List.exists_cons_of_length_eq_add_one hlength
    rw [List.forall_mem_cons] at hts hgaps
    have hrest := ih hts.2 (Nat.succ.inj hlength) hgaps.2
    have htext : (Token.respaced (t :: ts) (gap :: gaps)).toList =
        t.lexeme.toList ++ (gap.toList ++ (Token.respaced ts gaps).toList) := by
      simp [Token.respaced, String.join_cons]
    rw [htext]
    exact hts.1.scans (hgaps.1.apart _) (hrest.blanks hgaps.1.2)

open Lexer in
/-- The lexemes of a source, set apart by blanks, are the lexemes of the same tokens. -/
theorem Token.ofSource_respaced {source : String} {ts : List Token} {eof : Token} {gaps : List String}
    (h : Token.ofSource source = .ok (ts ++ [eof])) (hlength : gaps.length = ts.length)
    (hgaps : ∀ gap ∈ gaps, IsGap gap) :
    ∃ us eof', Token.ofSource (Token.respaced ts gaps) = .ok (us ++ [eof']) ∧
      us.map Token.spelled = ts.map Token.spelled ∧ eof'.kind = .endOfInput := by
  obtain ⟨us, eof', heq, -, hne⟩ := Token.exists_append_of_ofSource h
  obtain ⟨rfl, -⟩ := List.append_inj' heq rfl
  have hts : ∀ t ∈ ts, Lexed t := fun t ht =>
    (Token.lexed_of_ofSource h t (List.mem_append_left _ ht)).resolve_left (hne t ht)
  obtain ⟨vs, hvs, hspelled⟩ := Token.exists_of_scans (Token.scans_respaced hts hlength hgaps)
  obtain ⟨us, ws, rfl, hus, hws⟩ := List.map_eq_append_iff.mp hspelled
  obtain ⟨eof', rfl, heof⟩ := List.map_eq_singleton_iff.mp hws
  exact ⟨us, eof', hvs, hus, congrArg Prod.fst heof⟩

theorem Token.ofSource_respaced_compact :
    ∃ ts eof us eof', Token.ofSource "1<=x.5 #c\n#CONFIG" = .ok (ts ++ [eof]) ∧
      Token.respaced ts [" ", "\t", "  ", "\r", " \t", " ", "\r"] =
        "1 <=\tx  .\r5 \t\n #CONFIG\r" ∧
      Token.ofSource "1 <=\tx  .\r5 \t\n #CONFIG\r" = .ok (us ++ [eof']) ∧
      us.map (·.lexeme) = ["1", "<=", "x", ".", "5", "\n", "#CONFIG"] := by
  let ts : List Token := [⟨.integer 1, "1", ⟨1, 1, 0, 1⟩⟩, ⟨.symbol .lessEqual, "<=", ⟨1, 2, 1, 3⟩⟩,
    ⟨.identifier "x", "x", ⟨1, 4, 3, 4⟩⟩, ⟨.symbol .dot, ".", ⟨1, 5, 4, 5⟩⟩,
    ⟨.integer 5, "5", ⟨1, 6, 5, 6⟩⟩, ⟨.newline, "\n", ⟨1, 10, 9, 10⟩⟩,
    ⟨.directive, "#CONFIG", ⟨2, 1, 10, 17⟩⟩]
  have h : Token.ofSource "1<=x.5 #c\n#CONFIG" =
      .ok (ts ++ [⟨.endOfInput, "", ⟨2, 8, 17, 17⟩⟩]) := by
    cbv
  have hgaps : ∀ gap ∈ [" ", "\t", "  ", "\r", " \t", " ", "\r"], Lexer.IsGap gap := by
    simp [Lexer.IsGap, Text.isBlank]
  obtain ⟨us, eof', hus, hspelled, -⟩ := Token.ofSource_respaced h rfl hgaps
  have hlexemes := congrArg (List.map Prod.snd) hspelled
  rw [List.map_map, List.map_map] at hlexemes
  exact ⟨ts, _, us, eof', h, rfl, hus, hlexemes⟩

end Pseudocode
