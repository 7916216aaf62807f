import Mathlib.Data.List.DropRight
import Pseudocode.Proofs.Token.Lines

/-! # The text between tokens

What stands in the source from one token to a later one is the lexemes of the tokens between them, with
blanks and comments around these. Without blanks and comments it is the lexemes alone, unless one of them
has such characters in it.
-/

namespace Pseudocode

namespace Lexer

variable {source : String} {ts us : List Token} {t : Token} {text rest gap : List Char} {a b : Nat}

/-! ## The text between tokens -/

/-- The text consists of the lexemes of the tokens, with blanks and comments around them; `rest` follows
it. -/
inductive Spaced : List Token → (text rest : List Char) → Prop where
  | gap {gap rest : List Char} : Gap gap rest → Spaced [] gap rest
  | token {t : Token} {ts : List Token} {gap text rest : List Char} :
    Gap gap (t.lexeme.toList ++ (text ++ rest)) → t.lexeme ≠ "" → Spaced ts text rest →
      Spaced (t :: ts) (gap ++ (t.lexeme.toList ++ text)) rest

theorem Tiles.of_append (h : Tiles source a (ts ++ t :: us) b) : Tiles source t.span.stop us b := by
  induction ts generalizing a with
  | nil =>
    cases h with
    | token _ _ _ hus => exact hus
  | cons u ts ih =>
    cases h with
    | token _ _ _ hts => exact ih hts

def startOf (b : Nat) (ts : List Token) : Nat :=
  (ts.head?.map (·.span.start)).getD b

theorem Tiles.skippable (h : Tiles source a ts b) : Skippable source a (startOf b ts) := by
  cases h with
  | last hab => exact hab
  | token hat _ _ _ => exact hat

theorem startOf_append_cons {e : Token} {ys : List Token} (h : us ++ [t] = e :: ys) :
    startOf t.span.start us = e.span.start := by
  cases us with
  | nil =>
    obtain ⟨rfl, -⟩ := List.cons.inj h
    rfl
  | cons u us =>
    obtain ⟨rfl, -⟩ := List.cons.inj h
    rfl

theorem Tiles.exists_spaced (h : Tiles source a (ts ++ us) b) :
    ∃ before text after, Slice source a (startOf b us) before text after ∧ Spaced ts text after := by
  induction ts generalizing a with
  | nil =>
    obtain ⟨before, gap, after, hslice, hgap⟩ := h.skippable
    exact ⟨before, gap, after, hslice, .gap hgap⟩
  | cons t ts ih =>
    cases h with
    | @token _ _ _ _ before' after' hskip ht hlt hts =>
      obtain ⟨before, gap, after, ⟨hsource, rfl, hstart⟩, hgap⟩ := hskip
      obtain ⟨hsource', hstart', hstop⟩ := ht.slice
      obtain ⟨before'', text, after'', ⟨hsource'', hstart'', hend⟩, hspaced⟩ := ih hts
      have hne : t.lexeme ≠ "" := by
        intro he
        rw [hstart', hstop, he] at hlt
        simp at hlt
      -- the three ways to cut the source agree
      have hcut : before ++ gap ++ after = before' ++ (t.lexeme.toList ++ after') := by
        rw [← hsource, hsource', List.append_assoc]
      have hcut' : before' ++ t.lexeme.toList ++ after' = before'' ++ (text ++ after'') := by
        rw [← hsource', hsource'', List.append_assoc]
      obtain ⟨rfl, rfl⟩ := eq_of_utf8Len_eq hcut (hstart.symm.trans hstart')
      obtain ⟨rfl, rfl⟩ := eq_of_utf8Len_eq hcut' (hstop.symm.trans hstart'')
      refine ⟨before, gap ++ (t.lexeme.toList ++ text), after'', ⟨?_, rfl, ?_⟩, .token hgap hne hspaced⟩
      · simp [hsource]
      · simpa using hend

/-! ## Without blanks and comments -/

def uncommented (cs : List Char) : List Char :=
  cs.takeWhile (· ≠ '#')

def unspaced (cs : List Char) : List Char :=
  cs.filter (!Text.isBlank ·)

def trimmed (cs : List Char) : List Char :=
  (cs.dropWhile Text.isBlank).rdropWhile Text.isBlank

theorem unspaced_append (cs ds : List Char) : unspaced (cs ++ ds) = unspaced cs ++ unspaced ds :=
  List.filter_append cs ds

theorem unspaced_eq_nil {cs : List Char} (h : ∀ c ∈ cs, Text.isBlank c) : unspaced cs = [] := by
  simpa [unspaced] using h

theorem unspaced_dropWhile (cs : List Char) :
    unspaced (cs.dropWhile Text.isBlank) = unspaced cs := by
  have hsplit := List.takeWhile_append_dropWhile (p := Text.isBlank) (l := cs)
  have hnil : unspaced (cs.takeWhile Text.isBlank) = [] :=
    unspaced_eq_nil (List.all_eq_true.mp List.all_takeWhile)
  calc unspaced (cs.dropWhile Text.isBlank)
      = unspaced (cs.takeWhile Text.isBlank) ++ unspaced (cs.dropWhile Text.isBlank) := by
        rw [hnil, List.nil_append]
    _ = unspaced cs := by rw [← unspaced_append, hsplit]

theorem unspaced_trimmed (cs : List Char) : unspaced (trimmed cs) = unspaced cs := by
  rw [trimmed, List.rdropWhile, unspaced, List.filter_reverse, ← unspaced, unspaced_dropWhile, unspaced,
    List.filter_reverse, List.reverse_reverse, ← unspaced, unspaced_dropWhile]

/-- No blanks stand inside the text, apart from those at its ends. -/
def InOnePiece (cs : List Char) : Prop :=
  ∀ c ∈ trimmed cs, ¬ Text.isBlank c

theorem unspaced_eq_trimmed_iff {cs : List Char} : unspaced cs = trimmed cs ↔ InOnePiece cs := by
  rw [← unspaced_trimmed, unspaced, List.filter_eq_self, InOnePiece]
  simp

theorem Gap.uncommented (h : Gap gap rest) : ∀ c ∈ uncommented gap, Text.isBlank c := by
  induction h with
  | nil => exact nofun
  | @blank c gap rest hc _ ih =>
    have hne : c ≠ '#' := by
      rintro rfl
      exact absurd hc (by decide)
    simpa [Lexer.uncommented, hne, hc] using ih
  | comment => simp [Lexer.uncommented]

/-- Characters that lexemes in one piece with each other are made of. -/
def Solid (c : Char) : Prop :=
  ¬ Text.isBlank c ∧ c ≠ '#' ∧ c ≠ '\n'

theorem Spaced.unspaced (h : Spaced ts text rest)
    (hts : ∀ t ∈ ts, ∀ c ∈ t.lexeme.toList, Solid c) :
    unspaced (Lexer.uncommented text) = ts.flatMap (·.lexeme.toList) := by
  induction h with
  | gap hgap =>
    have hblank := hgap.uncommented
    simpa [Lexer.unspaced] using hblank
  | @token t ts gap text rest hgap hne _ ih =>
    rw [List.forall_mem_cons] at hts
    have hgapBlank : ∀ c ∈ gap, Text.isBlank c := by
      obtain ⟨c, cs, hc⟩ := List.exists_cons_of_ne_nil (mt String.toList_eq_nil_iff.mp hne)
      rw [hc, List.cons_append] at hgap
      exact hgap.blanks (hts.1 c (by simp [hc])).2.2
    have hgapHash : ∀ c ∈ gap, decide (c ≠ '#') := by
      intro c hc
      simp only [decide_eq_true_eq]
      rintro rfl
      exact absurd (hgapBlank '#' hc) (by decide)
    have hlexemeHash : ∀ c ∈ t.lexeme.toList, decide (c ≠ '#') := fun c hc =>
      decide_eq_true (hts.1 c hc).2.1
    have hlexeme : Lexer.unspaced t.lexeme.toList = t.lexeme.toList := by
      simpa [Lexer.unspaced] using fun c hc => (hts.1 c hc).1
    rw [Lexer.uncommented, List.takeWhile_append_of_pos hgapHash,
      List.takeWhile_append_of_pos hlexemeHash, ← Lexer.uncommented, unspaced_append, unspaced_append,
      unspaced_eq_nil hgapBlank, hlexeme, ih hts.2,
      List.nil_append, List.flatMap_cons]

end Lexer

open Lexer in
theorem Token.exists_tiles_of_ofSource {source : String} {ts : List Token}
    (h : Token.ofSource source = .ok ts) :
    ∃ us eof, ts = us ++ [eof] ∧ eof.kind = .endOfInput ∧ Tiles source 0 us eof.span.start := by
  obtain ⟨us, n, htiles, -, hends⟩ := @exists_tiles source [] source.toList rfl
  have hscan : Token.scan source = Lexer.scan (placeAfter []) source.toList := rfl
  rw [← hscan, Token.ofSource_eq_ok h] at hends
  cases hends with
  | endOfInput => exact ⟨us, _, rfl, rfl, htiles⟩

end Pseudocode
