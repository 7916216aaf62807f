import Pseudocode.Proofs.Directive.Grammar
import Pseudocode.Proofs.Token.Relexing

/-! # Tokens wherever they stand

Expressions and the values of directives are read off the kinds of their tokens, and the texts that a
directive keeps are made of lexemes. So it makes no difference to a directive where its tokens stand, but
for the line that it remembers.
-/

namespace Pseudocode

variable {ts us vs rest rest' : List Token}

/-! ## The kinds of tokens decide -/

theorem Token.forall_head_of_kinds (P : TokenKind → Prop)
    (h : vs.map Token.kind = us.map Token.kind) (hus : ∀ t ∈ us.head?, P t.kind) : ∀ t ∈ vs.head?, P t.kind := by
  intro t ht
  have hkind := congrArg List.head? h
  rw [List.head?_map, List.head?_map, Option.mem_def.mp ht, Option.map_some] at hkind
  obtain ⟨u, hu, hut⟩ := Option.map_eq_some_iff.mp hkind.symm
  rw [← hut]
  exact hus u hu

theorem Token.map_kind_of_spelled (h : vs.map Token.spelled = us.map Token.spelled) :
    vs.map Token.kind = us.map Token.kind := by
  have hkinds := congrArg (List.map Prod.fst) h
  rw [List.map_map, List.map_map] at hkinds
  exact hkinds

theorem Stops.of_kinds {p : Nat} (h : Stops p us) (hvs : vs.map Token.kind = us.map Token.kind) :
    Stops p vs :=
  Token.forall_head_of_kinds (fun k => ∀ op, BinaryOp.ofToken? k = some op → op.precedence < p) hvs h

theorem Phrase.Grammatical.exists_alike {d : Phrase} (h : d.Grammatical)
    (hts : ts.map Token.kind = d.tokens.map Token.kind) : ∃ d' : Phrase, d'.tokens = ts ∧
      d'.Grammatical ∧ d'.expr = d.expr ∧ d'.nesting = d.nesting ∧ d'.level = d.level := by
  induction d generalizing ts with
  | atom t e =>
    obtain ⟨u, rfl, hu⟩ := List.map_eq_singleton_iff.mp hts
    refine ⟨.atom u e, rfl, ?_, rfl, rfl, rfl⟩
    rwa [Grammatical, hu]
  | unary t op d ih =>
    obtain ⟨u, us, rfl, hu, hus⟩ := List.map_eq_cons_iff.mp hts
    obtain ⟨hop, hlevel, hd⟩ := h
    obtain ⟨d', rfl, hd', hexpr, hnesting, hlevel'⟩ := ih hd hus
    refine ⟨.unary u op d', rfl, ⟨?_, hlevel'.trans hlevel, hd'⟩, ?_, ?_, rfl⟩
    · rwa [hu]
    · rw [expr, hexpr, expr]
    · rw [nesting, hnesting, nesting]
  | group o d c ih =>
    obtain ⟨o', us, rfl, ho, hus⟩ := List.map_eq_cons_iff.mp hts
    rw [List.map_append] at hus
    obtain ⟨vs, ws, rfl, hvs, hws⟩ := List.map_eq_append_iff.mp hus
    obtain ⟨c', rfl, hc⟩ := List.map_eq_singleton_iff.mp hws
    obtain ⟨hleft, hright, hd⟩ := h
    obtain ⟨d', rfl, hd', hexpr, hnesting, -⟩ := ih hd hvs
    refine ⟨.group o' d' c', rfl, ⟨ho.trans hleft, hc.trans hright, hd'⟩, hexpr, ?_, rfl⟩
    rw [nesting, hnesting, nesting]
  | binary l t op r ihl ihr =>
    rw [tokens, List.map_append] at hts
    obtain ⟨us, vs, rfl, hus, hvs⟩ := List.map_eq_append_iff.mp hts
    obtain ⟨t', ws, rfl, ht, hws⟩ := List.map_eq_cons_iff.mp hvs
    obtain ⟨hop, hleft, hright, hl, hr⟩ := h
    obtain ⟨l', rfl, hl', hlexpr, hlnesting, hllevel⟩ := ihl hl hus
    obtain ⟨r', rfl, hr', hrexpr, hrnesting, hrlevel⟩ := ihr hr hws
    refine ⟨.binary l' t' op r', rfl, ⟨?_, ?_, ?_, hl', hr'⟩, ?_, ?_, rfl⟩
    · rwa [ht]
    · rwa [hllevel]
    · rwa [hrlevel]
    · rw [expr, hlexpr, hrexpr, expr]
    · rw [nesting, hlnesting, hrnesting, nesting]

namespace WrittenValue

variable {x : Float} {xs : List Float} {v : WrittenValue}

theorem Signed.of_kinds (h : Signed us x) (hvs : vs.map Token.kind = us.map Token.kind) :
    Signed vs x := by
  cases h with
  | plain ht =>
    obtain ⟨t', rfl, ht'⟩ := List.map_eq_singleton_iff.mp hvs
    exact .plain (ht' ▸ ht)
  | minus hm ht =>
    obtain ⟨m', ws, rfl, hm', hws⟩ := List.map_eq_cons_iff.mp hvs
    obtain ⟨t', rfl, ht'⟩ := List.map_eq_singleton_iff.mp hws
    exact .minus (hm'.trans hm) (ht' ▸ ht)

theorem More.of_kinds (h : More us xs) (hvs : vs.map Token.kind = us.map Token.kind) :
    More vs xs := by
  induction h generalizing vs with
  | nil =>
    obtain rfl := List.map_eq_nil_iff.mp hvs
    exact .nil
  | cons hc hsigned _ ih =>
    obtain ⟨c', ws, rfl, hc', hws⟩ := List.map_eq_cons_iff.mp hvs
    rw [List.map_append] at hws
    obtain ⟨ws, zs, rfl, hws, hzs⟩ := List.map_eq_append_iff.mp hws
    exact .cons (hc'.trans hc) (hsigned.of_kinds hws) (ih hzs)

theorem Front.of_kinds (h : Front us v rest) (hvs : vs.map Token.kind = us.map Token.kind)
    (hrest : rest'.map Token.kind = rest.map Token.kind) : Front vs v rest' := by
  cases h with
  | word ht =>
    obtain ⟨t', rfl, ht'⟩ := List.map_eq_singleton_iff.mp hvs
    exact .word (ht'.trans ht)
  | text ht =>
    obtain ⟨t', rfl, ht'⟩ := List.map_eq_singleton_iff.mp hvs
    exact .text (ht'.trans ht)
  | numbers hsigned hmore hstop =>
    rw [List.map_append] at hvs
    obtain ⟨ws, zs, rfl, hws, hzs⟩ := List.map_eq_append_iff.mp hvs
    exact .numbers (hsigned.of_kinds hws) (hmore.of_kinds hzs)
      (Token.forall_head_of_kinds (· ≠ .symbol .comma) hrest hstop)
  | constant hg hn hhead hvalue hx hstops =>
    obtain ⟨d', rfl, hg', hexpr, hnesting, -⟩ := hg.exists_alike hvs
    exact .constant hg' (hnesting ▸ hn)
      (Token.forall_head_of_kinds (· = .symbol .leftParen) hvs hhead) (hexpr ▸ hvalue) hx
      (hstops.of_kinds hrest)

theorem Written.of_kinds (h : Written us v) (hvs : vs.map Token.kind = us.map Token.kind) :
    Written vs v := by
  have hfront : Front us v [] := h.front nofun
  have hfront' : Front vs v [] := hfront.of_kinds hvs rfl
  exact hfront'.written

end WrittenValue

/-! ## Kinds and lexemes decide -/

namespace Directive

variable {line : Nat} {final : Span} {d : Directive}

theorem lexemes_of_spelled (h : vs.map Token.spelled = us.map Token.spelled) :
    lexemes vs = lexemes us := by
  have hlexemes := congrArg (List.map Prod.snd) h
  rw [List.map_map, List.map_map] at hlexemes
  exact congrArg String.join hlexemes

theorem forall_onLine_of_kinds (h : vs.map Token.kind = us.map Token.kind) (hus : ∀ t ∈ us, onLine t) :
    ∀ t ∈ vs, onLine t := by
  intro t ht
  have hmem : t.kind ∈ us.map Token.kind := h ▸ List.mem_map_of_mem ht
  obtain ⟨u, hu, hkind⟩ := List.mem_map.mp hmem
  rw [onLine_iff, ← hkind]
  exact onLine_iff.mp (hus u hu)

/-- A line with the same kinds and lexemes is read as the same directive, but for the line it stands on. -/
theorem read_of_spelled (h : Reads (read final line us) d [])
    (hvs : vs.map Token.spelled = us.map Token.spelled) (line' : Nat) :
    Reads (read final line' vs) { d with line := line' } [] := by
  obtain ⟨k, ws, mid, written, value, hk, hw, hvalue, rfl, hmid⟩ := reads_read.mp h
  obtain ⟨name, x, rfl, hx, rfl⟩ := reads_readKind.mp hk
  obtain ⟨ws', hws', hfront⟩ := WrittenValue.reads_read.mp hw
  obtain rfl : ws = ws' := List.append_cancel_right hws'
  have honLine : ∀ t ∈ mid, onLine t := List.dropWhile_eq_nil_iff.mp hmid.symm
  -- the same cuts among the other tokens
  obtain ⟨name', vs, rfl, hname, hvs⟩ := List.map_eq_cons_iff.mp hvs
  rw [List.map_append] at hvs
  obtain ⟨zs, mid', rfl, hzs, hmid'⟩ := List.map_eq_append_iff.mp hvs
  have hkinds := Token.map_kind_of_spelled hmid'
  have honLine' := forall_onLine_of_kinds hkinds honLine
  have hx' : name'.kind = .identifier x := (congrArg Prod.fst hname).trans hx
  refine reads_read.mpr ⟨.ofName x, zs, mid', written, value, ?_, ?_, ?_, ?_, ?_⟩
  · exact reads_readKind.mpr ⟨name', x, rfl, hx', rfl⟩
  · exact (hfront.of_kinds (Token.map_kind_of_spelled hzs) hkinds).reads
  · rw [lexemes_of_spelled hzs, hvalue]
  · rw [List.takeWhile_eq_self_iff.mpr honLine, List.takeWhile_eq_self_iff.mpr honLine',
      lexemes_of_spelled hmid']
  · exact (List.dropWhile_eq_nil_iff.mpr honLine').symm

end Directive
end Pseudocode
