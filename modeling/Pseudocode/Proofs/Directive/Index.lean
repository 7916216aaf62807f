import Pseudocode.Proofs.Directive.Grammar
import Pseudocode.Proofs.Instruction.Acceptance
import Pseudocode.Proofs.Instruction.Directives
import Pseudocode.Proofs.Path
import Pseudocode.Proofs.Program.Offences
import Pseudocode.Proofs.Program.Validity
import Pseudocode.Proofs.Token.Relexing
import Pseudocode.Proofs.Token.Spacing

/-! # The index of a directive in the source

The index is what stands on the line after the value, up to a comment. Blanks do not count, neither
around it nor inside it.
-/

namespace Pseudocode

/-! ## The parts of a directive -/

namespace WrittenValue

variable {us : List Token} {x : Float} {xs : List Float} {v : WrittenValue} {t : Token}

theorem ne_directive_of_number (h : number? t.kind = some x) : t.kind ≠ .directive := by
  intro ht
  rw [ht] at h
  cases h

theorem Signed.directives_eq_nil (h : Signed us x) : Token.directives us = [] := by
  cases h with
  | plain ht => simp [Token.directives, ne_directive_of_number ht]
  | minus hm ht => simp [Token.directives, hm, ne_directive_of_number ht]

theorem More.directives_eq_nil (h : More us xs) : Token.directives us = [] := by
  induction h with
  | nil => rfl
  | cons hc hsigned _ ih =>
    rw [Token.directives_cons_of_ne (by simp [hc]), Token.directives_append, hsigned.directives_eq_nil,
      ih, List.nil_append]

theorem Written.directives_eq_nil (h : Written us v) : Token.directives us = [] := by
  cases h with
  | word ht => simp [Token.directives, ht]
  | text ht => simp [Token.directives, ht]
  | numbers hsigned hmore =>
    rw [Token.directives_append, hsigned.directives_eq_nil, hmore.directives_eq_nil, List.nil_append]
  | constant hg => exact hg.directives_eq_nil

end WrittenValue

namespace Directive

variable {final : Span} {line : Nat} {d : Directive} {ts rest : List Token} {k : DirectiveKind}

theorem toList_lexemes (ts : List Token) : (lexemes ts).toList = ts.flatMap (·.lexeme.toList) := by
  induction ts with
  | nil => rfl
  | cons t ts ih => simpa [lexemes] using ih

/-- The tokens of a directive after the first: its kind, its value, and its index, which goes up to the
end of the line. -/
structure Parts (line : Nat) (d : Directive) (name : Token) (us ws : List Token)
    (written : WrittenValue) : Prop where
  kind : ∃ x, name.kind = .identifier x ∧ d.kind = .ofName x
  grammatical : WrittenValue.Written us written
  value : d.kind.interpret (lexemes us) written = .ok d.value
  onLine : ∀ w ∈ ws, onLine w
  index : d.index = lexemes ws
  reads : ∀ final rest, EndsLine rest →
    Reads (WrittenValue.read final line (us ++ (ws ++ rest))) written (ws ++ rest)
  line : d.line = line

theorem exists_parts (h : Reads (Directive.read final line ts) d []) :
    ∃ name us ws written, ts = name :: (us ++ ws) ∧ Parts line d name us ws written := by
  obtain ⟨k, us, ws, written, value, hk, hw, hvalue, rfl, hrest⟩ := reads_read.mp h
  obtain ⟨name, x, rfl, hx, hkind⟩ := reads_readKind.mp hk
  have hws : ∀ w ∈ ws, onLine w := List.dropWhile_eq_nil_iff.mp hrest.symm
  obtain ⟨us', hus', hwritten⟩ := WrittenValue.exists_written hw
  obtain rfl : us = us' := List.append_cancel_right hus'
  obtain ⟨us', hus', -, hreads⟩ := read_value_within hw
  obtain rfl : us = us' := List.append_cancel_right hus'
  refine ⟨name, us, ws, written, rfl, ⟨x, hx, hkind⟩, hwritten, hvalue, hws, ?_,
    fun final' rest hend => ?_, rfl⟩
  · rw [List.takeWhile_eq_self_iff.mpr hws]
  · apply hreads
    rw [SameLine, List.takeWhile_append_of_pos hws, hend.takeWhile, List.append_nil,
      List.takeWhile_eq_self_iff.mpr hws]

theorem Parts.ne_nil {name : Token} {us ws : List Token} {written : WrittenValue}
    (h : Parts line d name us ws written) : us ≠ [] := by
  rintro rfl
  have hlt := (h.reads .first [] endsLine_nil).shorter
  exact absurd hlt (Nat.lt_irrefl _)

end Directive

open Lexer Directive

variable {source : String} {ts us ws : List Token} {c : Content} {d : Directive}

/-! ## The rest of the line -/

/-- Among the tokens of the source `t` begins a directive, and `rest` is what stands between its value and
the end of the line. -/
inductive RestOfLine (source : String) (ts : List Token) (t : Token) (rest : List Char) : Prop where
  | intro {xs us ws ys : List Token} {name v e : Token} {written : WrittenValue}
      {before after : List Char} : t.kind = .directive →
    ts = xs ++ t :: name :: (us ++ v :: (ws ++ e :: ys)) →
    Reads (WrittenValue.read (lastSpan ts) t.span.line (us ++ v :: (ws ++ e :: ys))) written
      (ws ++ e :: ys) →
    (∀ w ∈ ws, onLine w) → ¬ onLine e → Slice source v.span.stop e.span.start before rest after →
      RestOfLine source ts t rest

/-- The rest of the line that a directive is read off, and the tokens in it, which make up the index. -/
structure DirectiveLine.Ends (source : String) (ts : List Token) (l : DirectiveLine) (ws : List Token)
    (rest : List Char) : Prop where
  restOfLine : RestOfLine source ts l.first rest
  spaced : ∃ after, Spaced ws rest after
  index : l.directive.index = lexemes ws
  line : l.directive.line = l.first.span.line
  directives : Token.directives l.others = Token.directives ws
  mem : ∀ w ∈ ws, w ∈ ts

theorem DirectiveLine.StandsIn.exists_ends {last : Prop} {l : DirectiveLine} {eof : Token}
    (h : l.StandsIn last us) (heof : eof.kind = .endOfInput)
    (htiles : Tiles source 0 us eof.span.start) :
    ∃ ws rest, l.Ends source (us ++ [eof]) ws rest := by
  obtain ⟨final, hread⟩ := h.reads
  obtain ⟨name, vs, ws, written, hothers, hparts⟩ := exists_parts hread
  obtain ⟨xs, zs, rfl, hnewline, -⟩ := h.tokens
  obtain ⟨vs, v, rfl⟩ := (List.eq_nil_or_concat' vs).resolve_left hparts.ne_nil
  obtain ⟨e, ys, hend⟩ := List.exists_cons_of_ne_nil (List.append_ne_nil_of_right_ne_nil zs
    (List.cons_ne_nil eof []))
  have hendsLine : EndsLine (zs ++ [eof]) := by
    rw [EndsLine, List.head?_append]
    cases zs with
    | nil => simp [onLine, heof]
    | cons z zs => simp [onLine, hnewline z rfl]
  have htokens : xs ++ l.first :: (l.others ++ zs) =
      xs ++ l.first :: name :: vs ++ v :: (ws ++ zs) := by simp [hothers]
  have hts : xs ++ l.first :: (l.others ++ zs) ++ [eof] =
      xs ++ l.first :: name :: (vs ++ v :: (ws ++ e :: ys)) := by simp [hothers, ← hend]
  rw [htokens] at htiles
  obtain ⟨before, rest, after, hslice, hspaced⟩ := htiles.of_append.exists_spaced
  rw [startOf_append_cons hend] at hslice
  have hreads := hparts.reads (lastSpan (xs ++ l.first :: (l.others ++ zs) ++ [eof])) _ hendsLine
  rw [hend, ← List.append_cons] at hreads
  refine ⟨ws, rest, ?_, ⟨after, hspaced⟩, hparts.index, hparts.line, ?_, ?_⟩
  · exact .intro h.first hts hreads hparts.onLine (hendsLine e (by rw [hend]; rfl)) hslice
  · obtain ⟨x, hx, -⟩ := hparts.kind
    rw [hothers, Token.directives_cons_of_ne (by simp [hx]), Token.directives_append,
      hparts.grammatical.directives_eq_nil, List.nil_append]
  · intro w hw
    simp [hts, hw]

/-! ## The index of an accepted directive -/

theorem solid_of_isDigit_or {c : Char} (h : c.isDigit ∨ c = '.') : Solid c := by
  rcases h with h | rfl
  · refine ⟨not_isBlank_of_isDigit h, ?_, ?_⟩ <;> rintro rfl <;> cases h
  · exact ⟨by decide, by decide, by decide⟩

/-- An index that is accepted has no blanks in it and begins no comment. -/
theorem Directive.WellFormed.solid (h : d.WellFormed) : ∀ c ∈ d.index.toList, Solid c := by
  rcases h.index with hindex | hindex
  · rw [hindex]
    exact nofun
  · obtain ⟨p, hp⟩ := Option.isSome_iff_exists.mp hindex
    exact fun c hc => solid_of_isDigit_or ((Path.spells_of_parse? hp).isDigit_or c hc)

namespace DirectiveLine.Ends

variable {l : DirectiveLine} {rest : List Char}

theorem solid (h : l.Ends source ts ws rest) (hd : l.directive.WellFormed) :
    ∀ w ∈ ws, ∀ c ∈ w.lexeme.toList, Solid c := by
  intro w hw c hc
  apply hd.solid
  rw [h.index, toList_lexemes, List.mem_flatMap]
  exact ⟨w, hw, hc⟩

theorem index_eq (h : l.Ends source ts ws rest) (hd : l.directive.WellFormed) :
    l.directive.index.toList = unspaced (uncommented rest) := by
  obtain ⟨after, hspaced⟩ := h.spaced
  rw [h.index, toList_lexemes, hspaced.unspaced (h.solid hd)]

/-- The index is not accepted if the rest of the line is in one piece that is neither empty nor a path. -/
theorem not_wellFormed (h : l.Ends source ts ws rest) (hpiece : InOnePiece (uncommented rest))
    (hne : trimmed (uncommented rest) ≠ [])
    (hparse : Path.parse? (.ofList (trimmed (uncommented rest))) = none) :
    ¬ l.directive.WellFormed := by
  intro hd
  have hindex := (h.index_eq hd).trans (unspaced_eq_trimmed_iff.mpr hpiece)
  rw [← hindex] at hne hparse
  rw [String.ofList_toList] at hparse
  rcases hd.index with hempty | hpath
  · exact hne (by rw [hempty]; rfl)
  · simp [hparse] at hpath

theorem directives_eq (h : l.Ends source ts ws rest) (hd : l.directive.WellFormed)
    (hts : Token.ofSource source = .ok ts) : l.directives = [l.first] := by
  have hws : Token.directives ws = [] := by
    apply Token.directives_eq_nil
    intro w hw hk
    rcases Token.lexed_of_ofSource hts w (h.mem w hw) with hend | hlexed
    · cases hk.symm.trans hend
    · obtain ⟨c, cs, hc, hbegins⟩ := hlexed.exists_begins
      rw [hk] at hbegins
      exact (h.solid hd w hw c (by simp [hc])).2.1 hbegins
  rw [DirectiveLine.directives, h.directives, hws]

end DirectiveLine.Ends

/-- Every directive ends with the rest of its line; if all are accepted, then each line begins the only
directive on it. -/
theorem Block.Derives.exists_ends {b : Block} (hb : b.Derives ts.dropLast)
    (hts : Token.ofSource source = .ok ts) :
    b.content.directives = b.directiveLines.map DirectiveLine.directive ∧
      (∀ l ∈ b.directiveLines, ∃ ws rest, l.Ends source ts ws rest) ∧
      ((∀ d ∈ b.content.directives, d.WellFormed) →
        Token.directives ts = b.directiveLines.map DirectiveLine.first) := by
  obtain ⟨us, eof, rfl, heof, htiles⟩ := Token.exists_tiles_of_ofSource hts
  have hlines : b.content.directives = b.directiveLines.map DirectiveLine.directive :=
    b.map_directiveLines.symm
  have htokens : b.tokens = us := by rw [hb.tokens, List.dropLast_concat]
  have hends : ∀ l ∈ b.directiveLines, ∃ ws rest, l.Ends source (us ++ [eof]) ws rest := by
    intro l hl
    have hstands := htokens ▸ Block.standsIn b hb.grammatical l hl
    exact hstands.exists_ends heof htiles
  refine ⟨hlines, hends, fun hall => ?_⟩
  have heofNil : Token.directives [eof] = [] := Token.directives_cons_of_ne (by simp [heof]) []
  rw [Token.directives_append, heofNil, List.append_nil, ← htokens,
    Block.directives_tokens b hb.grammatical, List.map_eq_flatMap]
  apply List.flatMap_congr
  intro l hl
  obtain ⟨ws, rest, h⟩ := hends l hl
  exact h.directives_eq (hall _ (hlines ▸ List.mem_map_of_mem hl)) hts

namespace Program

theorem wellFormed_of_ofSource {p : Program} (hts : Token.ofSource source = .ok ts)
    (hc : Content.ofTokens ts = .ok c) (hp : Program.ofSource source = .ok p) :
    p.directives = c.directives ∧ ∀ d ∈ c.directives, d.WellFormed := by
  obtain ⟨ts', c', hts', hc', -, hds⟩ := ofSource_eq_ok_iff.mp hp
  obtain rfl := Except.ok.inj (hts.symm.trans hts')
  obtain rfl := Except.ok.inj (hc.symm.trans hc')
  exact ⟨hds, exists_checkDirectives_iff.mp ⟨p.targets, hds ▸ p.directives_valid⟩⟩

theorem exists_invalidIndex (hts : Token.ofSource source = .ok ts) (hc : Content.ofTokens ts = .ok c)
    (hd : d ∈ c.directives) (hbad : ¬ d.WellFormed) :
    ∃ n d', c.directives[n]? = some d' ∧ Program.ofSource source =
      .error (.invalid ⟨.directive (n + 1), d'.line, .invalidIndex d'.index⟩) := by
  have hinstructions := checkInstructions_of_ofTokens hts hc
  obtain ⟨b, hb, rfl⟩ := (Content.ofTokens_eq_ok_iff_exists hts).mp hc
  obtain ⟨e, he⟩ := exists_error_checkDirectives ⟨d, hd, hbad⟩
  obtain ⟨n, d', hd', -, rfl⟩ := invalidIndex_of_checkDirectives (Block.accepts b hb.grammatical) he
  refine ⟨n, d', hd', ?_⟩
  have hparts := ofParts_eq_error_iff.mpr (.inr ⟨hinstructions, he⟩)
  simp [Program.ofSource, hts, hc, hparts, Except.mapError, bind, Except.bind]

/-- Each directive of a source is read off one line. If the source is accepted, then these are the lines
with a token that begins a directive, and the index is the rest of the line without any blanks: it is the
rest of the line as written just if there are none inside. A rest of the line in one piece that is neither
empty nor a path keeps the source from being accepted. -/
theorem index_restOfLine (hts : Token.ofSource source = .ok ts) (hc : Content.ofTokens ts = .ok c) :
    (∀ p, Program.ofSource source = .ok p →
      p.directives = c.directives ∧ (Token.directives ts).length = c.directives.length) ∧
    ∀ (i : Nat) (d : Directive), c.directives[i]? = some d →
      ∃ t rest, RestOfLine source ts t rest ∧ d.line = t.span.line ∧
        (∀ p, Program.ofSource source = .ok p → (Token.directives ts)[i]? = some t ∧
          d.index.toList = unspaced (uncommented rest) ∧
          (d.index.toList = trimmed (uncommented rest) ↔ InOnePiece (uncommented rest))) ∧
        (InOnePiece (uncommented rest) → trimmed (uncommented rest) ≠ [] →
          Path.parse? (.ofList (trimmed (uncommented rest))) = none →
          ∃ n d', c.directives[n]? = some d' ∧ Program.ofSource source =
            .error (.invalid ⟨.directive (n + 1), d'.line, .invalidIndex d'.index⟩)) := by
  obtain ⟨b, hb, rfl⟩ := (Content.ofTokens_eq_ok_iff_exists hts).mp hc
  obtain ⟨hlines, hends, hfirst⟩ := hb.exists_ends hts
  refine ⟨fun p hp => ?_, fun i d hi => ?_⟩
  · obtain ⟨hds, hwf⟩ := wellFormed_of_ofSource hts hc hp
    rw [hfirst hwf, hlines, List.length_map, List.length_map]
    exact ⟨hds.trans hlines, rfl⟩
  · have hd : d ∈ b.content.directives := List.mem_of_getElem? hi
    rw [hlines, List.getElem?_map, Option.map_eq_some_iff] at hi
    obtain ⟨l, hl, rfl⟩ := hi
    obtain ⟨ws, rest, h⟩ := hends l (List.mem_of_getElem? hl)
    refine ⟨l.first, rest, h.restOfLine, h.line, fun p hp => ?_, fun hpiece hne hparse => ?_⟩
    · obtain ⟨-, hwf⟩ := wellFormed_of_ofSource hts hc hp
      have hindex := h.index_eq (hwf _ hd)
      refine ⟨?_, hindex, ?_⟩
      · rw [hfirst hwf, List.getElem?_map, hl, Option.map_some]
      · rw [hindex, unspaced_eq_trimmed_iff]
    · exact exists_invalidIndex hts hc hd (h.not_wellFormed hpiece hne hparse)

/-- Two numbers with a blank between them are read as one, and the directive is aimed at the twelfth
instruction. -/
theorem index_restOfLine_two : ∃ ts c p t, Token.ofSource "#CONFIG COLOR_SI HFF0000 1 2" = .ok ts ∧
    Content.ofTokens ts = .ok c ∧ Program.ofSource "#CONFIG COLOR_SI HFF0000 1 2" = .ok p ∧
      RestOfLine "#CONFIG COLOR_SI HFF0000 1 2" ts t " 1 2".toList ∧
      trimmed (uncommented " 1 2".toList) = "1 2".toList ∧
      ∃ d rest, p.directives = [d] ∧ d.index = "12" ∧ Token.directives ts = [t] ∧
        RestOfLine "#CONFIG COLOR_SI HFF0000 1 2" ts t rest ∧ d.line = t.span.line ∧
        d.index.toList = unspaced (uncommented rest) ∧
        (d.index.toList = trimmed (uncommented rest) ↔ InOnePiece (uncommented rest)) := by
  have hts : Token.ofSource "#CONFIG COLOR_SI HFF0000 1 2" = .ok [
      ⟨.directive, "#CONFIG", ⟨1, 1, 0, 7⟩⟩, ⟨.identifier "COLOR_SI", "COLOR_SI", ⟨1, 9, 8, 16⟩⟩,
      ⟨.identifier "HFF0000", "HFF0000", ⟨1, 18, 17, 24⟩⟩, ⟨.integer 1, "1", ⟨1, 26, 25, 26⟩⟩,
      ⟨.integer 2, "2", ⟨1, 28, 27, 28⟩⟩, ⟨.endOfInput, "", ⟨1, 29, 28, 28⟩⟩] := by
    decide +kernel
  have hdirectives : (Program.ofSource "#CONFIG COLOR_SI HFF0000 1 2" >>= fun p => .ok p.directives) =
      .ok [⟨.style .color .si, .hexColor "HFF0000", "12", 1⟩] := by
    decide +kernel
  obtain ⟨p, hp, hd⟩ := Except.bind_eq_ok_iff.mp hdirectives
  obtain ⟨ts, c, hts', hc, -, -⟩ := ofSource_eq_ok_iff.mp hp
  obtain rfl := Except.ok.inj (hts.symm.trans hts')
  obtain ⟨hall, hlines⟩ := index_restOfLine hts hc
  obtain ⟨hpd, -⟩ := hall p hp
  rw [Except.ok.inj hd] at hpd
  obtain ⟨t, rest, hrest, hline, haccepted, -⟩ := hlines 0 _ (by rw [← hpd]; rfl)
  obtain ⟨hfirst, hindex, hpiece⟩ := haccepted p hp
  obtain rfl := Option.some.inj hfirst
  refine ⟨_, c, p, _, hts, hc, hp, ?_, by decide, _, rest, Except.ok.inj hd, rfl, rfl, hrest, hline,
    hindex, hpiece⟩
  have hslice : Slice "#CONFIG COLOR_SI HFF0000 1 2" 24 28 "#CONFIG COLOR_SI HFF0000".toList
      " 1 2".toList [] := ⟨by decide, by decide, by decide⟩
  have hreads {t e : Token} {s : String} {n : Int64} (ht : t.kind = .identifier s)
      (he : e.kind = .integer n) (final : Span) (line : Nat) (ts : List Token) :
      Reads (WrittenValue.read final line (t :: e :: ts)) (.word s) (e :: ts) := by
    apply (WrittenValue.Written.word ht).reads
    simp [WrittenValue.EndsValue, he, BinaryOp.ofToken?]
  exact @RestOfLine.intro _ _ _ _ [] [] [_, _] [] _ _ _ _ _ _ rfl rfl (hreads rfl rfl _ _ _)
    (by decide) (by decide) hslice

end Program

end Pseudocode
