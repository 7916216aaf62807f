import Pseudocode.Proofs.Directive.Index
import Pseudocode.Proofs.Directive.Adjacent
import Pseudocode.Proofs.Directive.Spelled

/-! # Directives of unknown kinds printed and read again

The value of an unknown kind is kept as the lexemes of its tokens, one right after the other, and so is the
index. These are read as the same tokens again, but for a remainder that runs into the number after it and
for a last position that is left alone and is too large for an integer.
-/

namespace Pseudocode

variable {t u : Token} {ts us vs : List Token} {k k' : TokenKind}

/-! ## Indexes -/

namespace Path

open Lexer

variable {cs ds rest : List Char} {n m : Nat} {ns : List Nat} {ps : List (TokenKind × String)}

/-- If the positions are taken two by two, then none is left or the one that is fits an integer. -/
def LastFits (ns : List Nat) : Prop :=
  Odd ns.length → ∀ n ∈ ns.getLast?, n < 2 ^ 63

instance : DecidablePred LastFits :=
  fun _ => inferInstanceAs (Decidable (_ → _))

theorem LastFits.of_cons_cons (h : LastFits (n :: m :: ns)) : LastFits ns := by
  intro hodd k hk
  have hne : ns ≠ [] := by
    rintro rfl
    cases hk
  have hodd' : Odd (n :: m :: ns).length := by
    rw [List.length_cons, List.length_cons]
    exact hodd.add_even even_two
  apply h hodd'
  rwa [List.getLast?_cons_of_ne_nil (List.cons_ne_nil _ _), List.getLast?_cons_of_ne_nil hne]

theorem exists_int64? (h : n < 2 ^ 63) : ∃ i, Decimal.int64? n = some i := by
  refine ⟨.ofInt n, if_pos ?_⟩
  rw [Int64.toInt_minValue, Int64.toInt_maxValue]
  omega

theorem Position.scans (h : Position cs n) (hn : n < 2 ^ 63) :
    ∃ i, Scans cs [(.integer i, .ofList cs), (.endOfInput, "")] := by
  obtain ⟨i, hi⟩ := exists_int64? hn
  obtain ⟨c, ds, rfl, hc, hnumeral⟩ :=
    exists_numeral_of_digits h.ne_nil h.digits (by rw [h.value, hi])
  have hscans := hnumeral.scans hc (apart_of_boundary boundary_nil _) scans_nil
  rw [List.append_nil] at hscans
  exact ⟨i, hscans⟩

theorem Position.scans_pair (h : Position cs n) (h' : Position ds m)
    (hr : ∀ c ∈ rest.head?, ¬ c.isDigit) (hrest : Scans rest ps) :
    ∃ x, Scans (cs ++ '.' :: (ds ++ rest)) ((.decimal x, .ofList (cs ++ '.' :: ds)) :: ps) := by
  have hpointed : Decimal.Pointed cs ds := ⟨h.ne_nil, h'.ne_nil, h.digits, h'.digits⟩
  obtain ⟨c, fs, hcs, hc, hnumeral⟩ := exists_numeral_of_pointed hpointed hpointed.parseFloat?
  have hscans := hnumeral.scans hc hr hrest
  rw [← List.cons_append, ← hcs, List.append_assoc] at hscans
  exact ⟨_, hscans⟩

/-- The tokens of an index: numbers and points, the first one a number. -/
structure IndexTokens (cs : List Char) (ps : List (TokenKind × String)) : Prop where
  scans : Scans cs (ps ++ [(.endOfInput, "")])
  lexemes : ps.flatMap (·.2.toList) = cs
  kinds : ∀ p ∈ ps, (WrittenValue.number? p.1).isSome ∨ p.1 = .symbol .dot
  head : ∀ p ∈ ps.head?, (WrittenValue.number? p.1).isSome

theorem indexTokens_nil : IndexTokens [] [] :=
  ⟨scans_nil, rfl, nofun, nofun⟩

theorem IndexTokens.append (h : IndexTokens rest ps) (hcs : Position cs n) (hds : Position ds m) :
    ∃ ps, IndexTokens (cs ++ '.' :: (ds ++ '.' :: rest)) ps := by
  have hfront : front '.' ([] ++ rest) = .ok (.symbol .dot, ([] : List Char).length) := rfl
  have hpoint := Scans.token (by decide) (by simp) hfront h.scans
  have hhead : ∀ c ∈ ('.' :: rest).head?, ¬ c.isDigit := by
    rintro _ ⟨⟩
    decide
  obtain ⟨x, hscans⟩ := hcs.scans_pair hds hhead hpoint
  refine ⟨(.decimal x, .ofList (cs ++ '.' :: ds)) :: (.symbol .dot, ".") :: ps, hscans, ?_, ?_, ?_⟩
  · simp [h.lexemes]
  · simpa [WrittenValue.number?] using h.kinds
  · simp [WrittenValue.number?]

/-- The text of a path is read as numbers and points, two positions at a time. -/
theorem Spells.exists_indexTokens (h : Spells cs ns) :
    (LastFits ns → ∃ ps, IndexTokens cs ps) ∧
      ∀ ds m, Position ds m → LastFits (m :: ns) → ∃ ps, IndexTokens (ds ++ '.' :: cs) ps := by
  induction h with
  | @one cs n hp =>
    constructor
    · intro hlast
      obtain ⟨i, hscans⟩ := hp.scans (hlast odd_one n rfl)
      refine ⟨[(.integer i, .ofList cs)], hscans, ?_, ?_, ?_⟩
      all_goals simp [WrittenValue.number?]
    · intro ds m hq _
      obtain ⟨x, hscans⟩ := hq.scans_pair hp (by simp) scans_nil
      rw [List.append_nil] at hscans
      refine ⟨[(.decimal x, .ofList (ds ++ '.' :: cs))], hscans, ?_, ?_, ?_⟩
      all_goals simp [WrittenValue.number?]
  | cons hp _ ih =>
    constructor
    · exact ih.2 _ _ hp
    · intro ds m hq hlast
      obtain ⟨ps, hps⟩ := ih.1 hlast.of_cons_cons
      exact hps.append hq hp

end Path

/-! ## Names of kinds -/

theorem Category.suffix_of_ofSuffix? {s : String} {c : Category} (h : ofSuffix? s = some c) :
    c.suffix = s := by
  unfold ofSuffix? at h
  split at h <;> cases h <;> rfl

theorem Property.stem_of_mem_stems : ∀ entry ∈ stems, entry.2.stem = entry.1 := by
  decide

namespace DirectiveKind

variable {x name stem : String} {p : Property} {k : DirectiveKind}

theorem ofStem?_eq_some (h : ofStem? x stem p = some k) : ∃ c, k = .style p c ∧ x = stem ++ c.suffix := by
  obtain ⟨suffix, hprefix, h⟩ := Option.bind_eq_some_iff.mp h
  obtain ⟨c, hsuffix, h⟩ := Option.bind_eq_some_iff.mp h
  refine ⟨c, (Option.some.inj h).symm, ?_⟩
  rw [Category.suffix_of_ofSuffix? hsuffix, ← String.toList_inj, String.toList_append,
    String.toList_ofList, List.append_eq_of_isPrefixOf?_eq_some hprefix]

/-- The kind that is read off a name has this name. -/
theorem name_ofName (x : String) : (ofName x).name = x := by
  unfold ofName
  cases h : Property.stems.findSome? fun entry => ofStem? x entry.1 entry.2 with
  | none => rfl
  | some k =>
    obtain ⟨entry, hmem, hentry⟩ := List.exists_of_findSome?_eq_some h
    obtain ⟨c, rfl, rfl⟩ := ofStem?_eq_some hentry
    rw [Option.getD_some, DirectiveKind.name, Property.stem_of_mem_stems _ hmem]

theorem eq_of_ofName (h : ofName x = .unknown name) : x = name := by
  rw [← name_ofName x, h, DirectiveKind.name]

end DirectiveKind

/-! ## The line of a directive -/

open Lexer

namespace Directive

variable {d : Directive} {line : Nat} {name : Token} {ws : List Token} {written : WrittenValue}
  {x : String} {ps : List (TokenKind × String)}

theorem Parts.value_eq (h : Parts line d name us ws written) (hk : d.kind = .unknown x) :
    d.value = .raw (lexemes us) := by
  have hvalue := h.value
  rw [hk, DirectiveKind.interpret] at hvalue
  exact (Except.ok.inj hvalue).symm

/-- The text is made of the lexemes of the tokens, one right after the other, and is read as them again; they
are a value. -/
structure SpellsValue (text : String) (us : List Token) (written : WrittenValue) : Prop where
  lexed : ∀ t ∈ us, Lexed t
  written : WrittenValue.Written us written
  chain : us.IsChain fun t u => Separate t.kind u.kind
  text : lexemes us = text

theorem toList_render (hname : name.lexeme = d.kind.name) (hus : lexemes us = d.value.render) :
    d.render.toList = '#' :: (directiveTail ++ (' ' :: (name.lexeme.toList ++
      (' ' :: (us.flatMap (·.lexeme.toList) ++
        if d.isGlobal then [] else ' ' :: d.index.toList))))) := by
  rw [render, hname, ← hus, ← toList_lexemes]
  split <;> simp [directiveTail]

/-- The line that a directive is printed on has the tokens that spell its kind, its value and its index. -/
theorem SpellsValue.scans (h : SpellsValue d.value.render us written) (hname : Lexed name)
    (hkind : name.kind = .identifier d.kind.name) (hps : Path.IndexTokens d.index.toList ps) :
    Scans d.render.toList ((.directive, "#CONFIG") :: name.spelled ::
      (us.map Token.spelled ++ (ps ++ [(.endOfInput, "")]))) := by
  have hindex : Scans (if d.isGlobal then [] else ' ' :: d.index.toList)
      (ps ++ [(.endOfInput, "")]) := by
    split
    case isTrue hglobal =>
      have hscans := hps.scans
      rwa [isGlobal_iff.mp hglobal] at hscans
    case isFalse => exact hps.scans.blank rfl
  have hboundary : Boundary (if d.isGlobal then [] else ' ' :: d.index.toList) := by
    split
    · exact boundary_nil
    · exact boundary_cons (.inl rfl)
  have hvalue := scans_flatMap h.lexed h.chain (fun t _ => apart_of_boundary hboundary t.kind) hindex
  have hrest := hname.scans (apart_of_boundary (boundary_cons (.inl rfl)) _) (hvalue.blank rfl)
  have hword : Text.isWordChar ' ' = false := by decide
  rw [toList_render (hname.lexeme_of_identifier hkind) h.text]
  exact .token (by decide) (by simp [isDirective, directiveTail, hword]) rfl (hrest.blank rfl)

theorem Parts.scans (h : Parts line d name us ws written) (hk : d.kind = .unknown x)
    (hlexed : ∀ t ∈ name :: us, Lexed t)
    (hruns : ¬ WrittenValue.RunsTogether (us.flatMap (·.lexeme.toList)))
    (hps : Path.IndexTokens d.index.toList ps) :
    Scans d.render.toList ((.directive, "#CONFIG") :: name.spelled ::
      (us.map Token.spelled ++ (ps ++ [(.endOfInput, "")]))) := by
  obtain ⟨hname, hus⟩ := List.forall_mem_cons.mp hlexed
  have hspells : SpellsValue d.value.render us written :=
    ⟨hus, h.grammatical, h.grammatical.chain hus hruns, by rw [h.value_eq hk, DirectiveValue.render]⟩
  obtain ⟨y, hy, hkind⟩ := h.kind
  obtain rfl := DirectiveKind.eq_of_ofName (hkind.symm.trans hk)
  exact hspells.scans hname (by rw [hk, hy, DirectiveKind.name]) hps

theorem flatMap_spelled (ts : List Token) :
    (ts.map Token.spelled).flatMap (·.2.toList) = (lexemes ts).toList := by
  rw [toList_lexemes, List.flatMap_map]
  rfl

/-- A line with the tokens of a kind, a value and an index on it, wherever they stand, is read as a directive
that is made of these. -/
theorem reads_of_spelled {value : DirectiveValue} {index : String} (hx : name.kind = .identifier x)
    (hwritten : WrittenValue.Written us written)
    (hvalue : (DirectiveKind.ofName x).interpret (lexemes us) written = .ok value)
    (hps : Path.IndexTokens index.toList ps)
    (hts : ts.map Token.spelled = name.spelled :: (us.map Token.spelled ++ ps)) (final : Span)
    (line : Nat) : Reads (Directive.read final line ts) ⟨.ofName x, value, index, line⟩ [] := by
  obtain ⟨n, ts, rfl, hn, hts⟩ := List.map_eq_cons_iff.mp hts
  obtain ⟨vs, is, rfl, hvs, rfl⟩ := List.map_eq_append_iff.mp hts
  have hlexemes : lexemes vs = lexemes us := lexemes_of_spelled hvs
  have hindex : lexemes is = index := by
    rw [← String.toList_inj, ← flatMap_spelled, hps.lexemes]
  have hline : ∀ t ∈ is, Directive.onLine t := by
    intro t ht
    have hkinds : (WrittenValue.number? t.kind).isSome ∨ t.kind = .symbol .dot :=
      hps.kinds t.spelled (List.mem_map_of_mem ht)
    rw [onLine_iff]
    constructor <;> intro hk <;> simp [hk, WrittenValue.number?] at hkinds
  have hends : WrittenValue.EndsValue is := by
    intro t ht
    have hnumber : (WrittenValue.number? t.kind).isSome :=
      hps.head t.spelled (by simp [Option.mem_def.mp ht])
    cases hk : t.kind <;> simp_all [WrittenValue.number?, BinaryOp.ofToken?]
  rw [reads_read]
  refine ⟨.ofName x, vs, is, written, value, ?_, ?_, ?_, ?_, ?_⟩
  · exact reads_readKind.mpr ⟨n, x, rfl, (congrArg Prod.fst hn).trans hx, rfl⟩
  · exact ((hwritten.of_kinds (Token.map_kind_of_spelled hvs)).front hends).reads
  · rw [hlexemes, hvalue]
  · rw [List.takeWhile_eq_self_iff.mpr hline, hindex]
  · rw [List.dropWhile_eq_nil_iff.mpr hline]

theorem Parts.reads_again (h : Parts line d name us ws written)
    (hps : Path.IndexTokens d.index.toList ps)
    (hts : ts.map Token.spelled = name.spelled :: (us.map Token.spelled ++ ps)) (final : Span)
    (line' : Nat) : Reads (Directive.read final line' ts) { d with line := line' } [] := by
  obtain ⟨y, hy, hkind⟩ := h.kind
  have hreads := reads_of_spelled hy h.grammatical (hkind ▸ h.value) hps hts final line'
  rwa [← hkind] at hreads

end Directive

namespace Program

variable {source : String} {p : Program} {d : Directive} {name : String}

theorem exists_parts_of_ofSource (hp : Program.ofSource source = .ok p) (hd : d ∈ p.directives) :
    d.WellFormed ∧ ∃ line n us ws written, Directive.Parts line d n us ws written ∧
      ∀ t ∈ n :: us, Lexed t := by
  obtain ⟨ts, c, hts, hc, -, hds⟩ := ofSource_eq_ok_iff.mp hp
  refine ⟨exists_checkDirectives_iff.mp ⟨p.targets, p.directives_valid⟩ d hd, ?_⟩
  obtain ⟨b, hb, rfl⟩ := (Content.ofTokens_eq_ok_iff_exists hts).mp hc
  have hlines : b.directiveLines.map DirectiveLine.directive = b.content.directives :=
    b.map_directiveLines
  rw [hds, ← hlines] at hd
  obtain ⟨l, hl, rfl⟩ := List.mem_map.mp hd
  have hstands := Block.standsIn b hb.grammatical l hl
  obtain ⟨final, hread⟩ := hstands.reads
  obtain ⟨n, us, ws, written, hothers, hparts⟩ := Directive.exists_parts hread
  refine ⟨_, n, us, ws, written, hparts, fun t ht => ?_⟩
  have hmem : t ∈ b.tokens := by
    obtain ⟨xs, ys, htokens, -⟩ := hstands.tokens
    rw [htokens, hothers]
    simp only [List.mem_cons] at ht
    rcases ht with rfl | ht <;> simp [*]
  have hlexed := Token.lexed_of_ofSource hts t (List.mem_of_mem_dropLast (hb.tokens ▸ hmem))
  exact hlexed.resolve_left (Block.ne_endOfInput b hb.grammatical t hmem)

theorem exists_ofSource_of_reads {t eof : Token} {others : List Token}
    (hts : Token.ofSource source = .ok (t :: (others ++ [eof]))) (ht : t.kind = .directive)
    (hreads : ∀ final, Reads (Directive.read final t.span.line others) d []) (hd : d.WellFormed) :
    ∃ q, Program.ofSource source = .ok q ∧ q.instructions = [] ∧ q.directives = [d] := by
  have hderives : (Block.line [] (.directive t others d) none (.blank [])).Derives
      (t :: (others ++ [eof])).dropLast := by
    refine ⟨⟨nofun, ⟨ht, .first, hreads _⟩, ⟨trivial, rfl⟩, nofun⟩, ?_, Nat.zero_le _, Nat.zero_le _⟩
    rw [← List.cons_append, List.dropLast_concat]
    simp [Block.tokens, Item.tokens]
  have hcontent := (Content.ofTokens_eq_ok_iff_exists hts).mpr ⟨_, hderives, rfl⟩
  obtain ⟨targets, hvalid⟩ := exists_checkDirectives_iff.mpr (List.forall_mem_singleton.mpr hd)
  exact ⟨⟨[], [d], targets, rfl, hvalid⟩, ofSource_eq_ok_iff.mpr ⟨_, _, hts, hcontent, rfl, rfl⟩, rfl, rfl⟩

/-- A directive of an unknown kind is read off its text again, unless a remainder in its value runs into the
number it is taken by, or the last position of its index is left alone and too large. -/
theorem ofSource_render_directive (hp : Program.ofSource source = .ok p) (hd : d ∈ p.directives)
    (hk : d.kind = .unknown name) (hruns : ¬ WrittenValue.RunsTogether d.value.render.toList)
    (hlast : ∀ path, Path.parse? d.index = some path → Path.LastFits path.positions) :
    ∃ q e, Program.ofSource d.render = .ok q ∧ q.instructions = [] ∧ q.directives = [e] ∧
      e.kind = d.kind ∧ e.value = d.value ∧ e.index = d.index := by
  obtain ⟨hwf, line, n, us, ws, written, hparts, hlexed⟩ := exists_parts_of_ofSource hp hd
  obtain ⟨ps, hps⟩ : ∃ ps, Path.IndexTokens d.index.toList ps := by
    rcases hwf.index with hindex | hindex
    · rw [hindex]
      exact ⟨[], Path.indexTokens_nil⟩
    · obtain ⟨path, hpath⟩ := Option.isSome_iff_exists.mp hindex
      exact (Path.spells_of_parse? hpath).exists_indexTokens.1 (hlast path hpath)
  rw [hparts.value_eq hk, DirectiveValue.render, Directive.toList_lexemes] at hruns
  obtain ⟨ts, hts, hspelled⟩ := Token.exists_of_scans (hparts.scans hk hlexed hruns hps)
  obtain ⟨t, ts, rfl, ht, hspelled⟩ := List.map_eq_cons_iff.mp hspelled
  rw [← List.append_assoc, ← List.cons_append] at hspelled
  obtain ⟨others, eofs, rfl, hothers, heof⟩ := List.map_eq_append_iff.mp hspelled
  obtain ⟨eof, rfl, -⟩ := List.map_eq_singleton_iff.mp heof
  have hreads := fun final => hparts.reads_again hps hothers final t.span.line
  obtain ⟨q, hq, hinstructions, hdirectives⟩ :=
    exists_ofSource_of_reads hts (congrArg Prod.fst ht) hreads ⟨hwf.value, hwf.index⟩
  exact ⟨q, _, hq, hinstructions, hdirectives, rfl, rfl, rfl⟩

theorem ofSource_render_directive_negative : ∃ p d,
    Program.ofSource "#CONFIG SOMBRA (7 MOD -3) 1.2.3" = .ok p ∧ d ∈ p.directives ∧
      d.kind = .unknown "SOMBRA" ∧ ¬ WrittenValue.RunsTogether d.value.render.toList ∧
      (∀ path, Path.parse? d.index = some path → Path.LastFits path.positions) ∧
      ∃ q e, Program.ofSource d.render = .ok q ∧ q.instructions = [] ∧ q.directives = [e] ∧
        e.kind = d.kind ∧ e.value = d.value ∧ e.index = d.index := by
  have hdirectives : (Program.ofSource "#CONFIG SOMBRA (7 MOD -3) 1.2.3" >>= fun p => .ok p.directives) =
      .ok [⟨.unknown "SOMBRA", .raw "(7MOD-3)", "1.2.3", 1⟩] := by
    decide +kernel
  obtain ⟨p, hp, hds⟩ := Except.bind_eq_ok_iff.mp hdirectives
  have hd : ⟨.unknown "SOMBRA", .raw "(7MOD-3)", "1.2.3", 1⟩ ∈ p.directives := by
    simp [Except.ok.inj hds]
  have hruns : ¬ WrittenValue.RunsTogether "(7MOD-3)".toList := by decide
  have hlast : ∀ path, Path.parse? "1.2.3" = some path → Path.LastFits path.positions := by
    intro path hpath
    obtain rfl : Path.mk [1, 2, 3] = path := by
      rw [← Option.some_inj, ← hpath]
      decide +kernel
    decide
  exact ⟨p, _, hp, hd, rfl, hruns, hlast, ofSource_render_directive hp hd rfl hruns hlast⟩

/-- Without its blanks the remainder becomes a name, and the text is no program. -/
theorem ofSource_render_directive_ne : ∃ p d, Program.ofSource "#CONFIG SOMBRA (7 MOD 3)" = .ok p ∧
    d ∈ p.directives ∧ d.kind = .unknown "SOMBRA" ∧ ∀ q, Program.ofSource d.render ≠ .ok q := by
  have hdirectives : (Program.ofSource "#CONFIG SOMBRA (7 MOD 3)" >>= fun p => .ok p.directives) =
      .ok [⟨.unknown "SOMBRA", .raw "(7MOD3)", "", 1⟩] := by
    decide +kernel
  obtain ⟨p, hp, hds⟩ := Except.bind_eq_ok_iff.mp hdirectives
  have herror : (Program.ofSource "#CONFIG SOMBRA (7MOD3)" >>= fun p => .ok p.directives) =
      .error (.syntactic (.unexpected 1 18 .closingParen "'MOD3'")) := by
    decide +kernel
  have hd : ⟨.unknown "SOMBRA", .raw "(7MOD3)", "", 1⟩ ∈ p.directives := by
    simp [Except.ok.inj hds]
  refine ⟨p, _, hp, hd, rfl, fun q hq => ?_⟩
  have hrender : Directive.render ⟨.unknown "SOMBRA", .raw "(7MOD3)", "", 1⟩ =
      "#CONFIG SOMBRA (7MOD3)" := by
    decide
  rw [hrender] at hq
  rw [hq] at herror
  cases herror

end Program

end Pseudocode
