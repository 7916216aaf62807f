import Pseudocode.Proofs.Instruction.Grammar

/-! # The reading of instructions and their grammar

A program is read just if its tokens have a derivation, and then it is what the derivation derives. The
reader of sections goes line by line; that of statements is given a reader for the blocks inside.
-/

namespace Pseudocode

variable {n : Nat} {t : Token} {ts us rest : List Token} {c : Content} {k : Keyword} {line : Nat}
  {final : Span}

def Section.Leaves (x : Except SyntaxError (Section ts)) (c : Content) (rest : List Token) : Prop :=
  ∃ h, x = .ok ⟨c, rest, h⟩

/-- A reader takes the blocks in which less than `n` blocks are open at once. -/
def SectionReader.Takes (n : Nat) (inner : SectionReader) : Prop :=
  ∀ line ts c rest, Section.Leaves (inner line ts) c rest ↔
    ∃ b : Block, b.Front n ts rest ∧ b.content = c

theorem endLine_eq_ok_iff :
    (∃ h, endLine final ts = .ok ⟨us, h⟩) ↔ ∃ lineEnd, EndsWith ts lineEnd us := by
  constructor
  · rintro ⟨h, heq⟩
    cases ts with
    | nil =>
      cases heq
      exact ⟨none, .atEnd (by rintro _ ⟨⟩)⟩
    | cons t ts =>
      rw [endLine] at heq
      split at heq
      case h_1 hk =>
        cases heq
        exact ⟨some t, .newline hk⟩
      case h_2 hk =>
        cases heq
        exact ⟨none, .atEnd (by rintro _ ⟨⟩; exact hk)⟩
      case h_3 => cases heq
  · rintro ⟨lineEnd, h⟩
    cases h with
    | newline ht => exact ⟨Nat.le_succ _, by simp [endLine, ht]⟩
    | atEnd h =>
      refine ⟨Nat.le_refl _, ?_⟩
      cases ts with
      | nil => rfl
      | cons t ts => simp [endLine, h t rfl]

namespace Statement

theorem reads_closeBlock {kind : BlockKind} {s : Section ts} :
    Reads (closeBlock final kind line s) (c, k) rest ↔
      kind.closes k ∧ s.content = c ∧ ∃ t, s.rest = t :: rest ∧ t.kind = .keyword k := by
  rw [closeBlock.eq_def]
  split
  case h_1 hnil => simp [hnil]
  case h_2 t us hrest =>
    split
    case h_1 hk => simp [hrest, hk]
    case h_2 k' hk =>
      split
      case isTrue hc =>
        simp only [reads_ok, Prod.mk.injEq, hrest, List.cons.injEq]
        constructor
        · rintro ⟨⟨hcontent, rfl⟩, rfl⟩
          exact ⟨hc, hcontent, t, ⟨rfl, rfl⟩, hk⟩
        · rintro ⟨-, hcontent, _, ⟨rfl, rfl⟩, hk'⟩
          exact ⟨⟨hcontent, TokenKind.keyword.inj (hk.symm.trans hk')⟩, rfl⟩
      case isFalse hc =>
        refine ⟨fun h => (reads_error h).elim, ?_⟩
        rintro ⟨hc', -, _, hcons, hk'⟩
        obtain ⟨rfl, -⟩ := List.cons.inj (hrest.symm.trans hcons)
        obtain rfl := TokenKind.keyword.inj (hk.symm.trans hk')
        exact absurd hc' hc
    case h_3 hother _ =>
      refine ⟨fun h => (reads_error h).elim, ?_⟩
      rintro ⟨-, -, _, hcons, hk'⟩
      obtain ⟨rfl, -⟩ := List.cons.inj (hrest.symm.trans hcons)
      simp_all

theorem reads_readBlock {inner : SectionReader} (hinner : inner.Takes n) {kind : BlockKind} :
    Reads (readBlock final inner kind line ts) (c, k) rest ↔
      kind.closes k ∧ ∃ d : Nested, d.Front n k ts rest ∧ ⟨d.instructions, d.directives⟩ = c := by
  constructor
  · rintro ⟨hlt, h⟩
    obtain ⟨r, hr, h⟩ := Except.bind_eq_ok_iff.mp h
    obtain ⟨s, hs, h⟩ := Except.bind_eq_ok_iff.mp h
    obtain ⟨block, hblock, h⟩ := reads_bind.mp ⟨hlt, h⟩
    obtain ⟨hv, rfl⟩ := reads_ok.mp h
    have hclose : Reads (closeBlock final kind line s) (c, k) block.rest := hv ▸ reads_of_eq hblock
    obtain ⟨hk, rfl, t, hrest, ht⟩ := reads_closeBlock.mp hclose
    obtain ⟨lineEnd, hline⟩ := endLine_eq_ok_iff.mp ⟨r.property, hr⟩
    obtain ⟨b, hb, hcontent⟩ := (hinner _ _ _ _).mp ⟨s.le, hs⟩
    rw [hrest] at hb
    obtain ⟨newline, hts, hn⟩ | hend : (∃ newline, ts = newline :: r.val ∧ newline.kind = .newline) ∨
        AtEnd r.val := by
      generalize r.val = us at hline
      cases hline with
      | newline hn => exact .inl ⟨_, rfl, hn⟩
      | atEnd hend => exact .inr hend
    · exact ⟨hk, .mk newline b t, ⟨hn, ht, r.val, hts, hb⟩, hcontent⟩
    ·
      -- the keyword that closes the block cannot stand at the end of the input
      cases n with
      | zero => exact absurd hb.depth (Nat.not_lt_zero _)
      | succ n =>
        obtain ⟨-, hts⟩ := (Block.front_of_ends hend.endsSection).mp hb
        exact ((not_atEnd_cons ht).mp (hts ▸ hend)).elim
  · rintro ⟨hk, ⟨newline, b, closing⟩, ⟨hn, hc, us, rfl, hb⟩, rfl⟩
    obtain ⟨hle, hline⟩ : ∃ h, endLine final (newline :: us) = .ok ⟨us, h⟩ :=
      endLine_eq_ok_iff.mpr ⟨_, .newline hn⟩
    obtain ⟨hle', hs⟩ := (hinner line us _ _).mpr ⟨b, hb, rfl⟩
    obtain ⟨hlt, hclose⟩ : Reads (closeBlock final kind line ⟨b.content, closing :: rest, hle'⟩)
      (b.content, k) rest := reads_closeBlock.mpr ⟨hk, rfl, closing, rfl, hc⟩
    refine ⟨Nat.lt_of_lt_of_le hlt hle, ?_⟩
    simp only [readBlock, hline, hs, hclose, bind, Except.bind]
    rfl

/-! ## Statements -/

def ofItem? (item : Item) : Option Statement :=
  item.instruction?.map (⟨·, item.directives⟩)

theorem reads_readAssign {name : String} {s : Statement} :
    Reads (readAssign final name line ts) s rest ↔ ∃ equal us, ∃ d : Phrase, ts = equal :: us ∧
      equal.kind = .symbol .equal ∧ d.Front maxNesting 1 us rest ∧
      ⟨.assign name d.expr line, []⟩ = s := by
  rw [readAssign]
  refine (reads_seq (y := Expr.read final)
    (f := fun _ e => (⟨.assign name e line, []⟩ : Statement))).trans ?_
  simp only [reads_expect, Expr.read_iff_front]
  constructor
  · rintro ⟨-, us, -, ⟨equal, he, rfl⟩, ⟨d, hd, rfl⟩, rfl⟩
    exact ⟨equal, us, d, rfl, he, hd, rfl⟩
  · rintro ⟨equal, us, d, rfl, he, hd, rfl⟩
    exact ⟨(), us, d.expr, ⟨equal, he, rfl⟩, ⟨d, hd, rfl⟩, rfl⟩

theorem reads_readLoop {inner : SectionReader} (hinner : inner.Takes n) {s : Statement} :
    Reads (readLoop final inner line ts) s rest ↔ ∃ d : Phrase, ∃ us body,
      d.Front maxNesting 1 ts us ∧ Nested.Front n .finMientras body us rest ∧
      ⟨.loop d.expr body.instructions line, body.directives⟩ = s := by
  rw [readLoop]
  refine (reads_seq (y := readBlock final inner .mientras line) (f := fun e block =>
    (⟨.loop e block.1.instructions line, block.1.directives⟩ : Statement))).trans ?_
  simp only [Prod.exists, Expr.read_iff_front, reads_readBlock hinner]
  constructor
  · rintro ⟨-, us, _, k, ⟨d, hd, rfl⟩, ⟨hk, body, hbody, rfl⟩, rfl⟩
    obtain rfl : k = .finMientras := by revert hk; cases k <;> simp [BlockKind.closes]
    exact ⟨d, us, body, hd, hbody, rfl⟩
  · rintro ⟨d, us, body, hd, hbody, rfl⟩
    exact ⟨d.expr, us, _, _, ⟨d, hd, rfl⟩, ⟨rfl, body, hbody, rfl⟩, rfl⟩

theorem reads_readDisplay {s : Statement} :
    Reads (readDisplay final line ts) s rest ↔
      ∃ d : Phrase, d.Front maxNesting 1 ts rest ∧ ⟨.display d.expr line, []⟩ = s := by
  rw [readDisplay, reads_bind]
  constructor
  · rintro ⟨e, he, h⟩
    obtain ⟨rfl, rfl⟩ := reads_ok.mp h
    obtain ⟨d, hd, hde⟩ := Expr.read_iff_front.mp (reads_of_eq he)
    exact ⟨d, hd, by rw [hde]; rfl⟩
  · rintro ⟨d, hd, rfl⟩
    obtain ⟨hlt, he⟩ : Reads (Expr.read final ts) d.expr rest := Expr.read_iff_front.mpr ⟨d, hd, rfl⟩
    exact ⟨_, he, reads_ok.mpr ⟨rfl, rfl⟩⟩

theorem reads_readInput {s : Statement} :
    Reads (readInput final line ts) s rest ↔
      ∃ target name, ts = target :: rest ∧ target.kind = .identifier name ∧
        ⟨.input name line, []⟩ = s := by
  cases ts with
  | nil => simp [readInput]
  | cons t ts =>
    rw [readInput]
    split
    case h_1 name hk =>
      rw [reads_ok]
      constructor
      · rintro ⟨rfl, rfl⟩
        exact ⟨t, name, rfl, hk, rfl⟩
      · rintro ⟨_, name', hcons, hk', rfl⟩
        obtain ⟨rfl, rfl⟩ := List.cons.inj hcons
        obtain rfl := TokenKind.identifier.inj (hk.symm.trans hk')
        exact ⟨rfl, rfl⟩
    case h_2 _ hother =>
      refine ⟨fun h => (reads_error h).elim, ?_⟩
      rintro ⟨_, name, hcons, hk, -⟩
      obtain ⟨rfl, -⟩ := List.cons.inj hcons
      exact absurd hk (hother name)

theorem reads_readBranch {inner : SectionReader} (hinner : inner.Takes n) {s : Statement} :
    Reads (readBranch final inner line ts) s rest ↔ ∃ d : Phrase, ∃ us, d.Front maxNesting 1 ts us ∧
      ((∃ body, Nested.Front n .finSi body us rest ∧
        ⟨.branch d.expr body.instructions none line, body.directives⟩ = s) ∨
      ∃ body vs otherwise, Nested.Front n .sino body us vs ∧ Nested.Front n .finSi otherwise vs rest ∧
        ⟨.branch d.expr body.instructions (some otherwise.instructions) line,
          body.directives ++ otherwise.directives⟩ = s) := by
  rw [readBranch, reads_bind]
  constructor
  · rintro ⟨e, he, h⟩
    obtain ⟨d, hd, hde⟩ := Expr.read_iff_front.mp (reads_of_eq he)
    obtain ⟨block, hblock, h⟩ := reads_bind.mp h
    have hread : Reads (readBlock final inner .si line e.rest) (block.value.1, block.value.2)
      block.rest := reads_of_eq hblock
    obtain ⟨hk, body, hbody, hcontent⟩ := (reads_readBlock hinner).mp hread
    refine ⟨d, e.rest, hd, ?_⟩
    rw [hde]
    split at h
    case isTrue hsino =>
      obtain ⟨block', hblock', h⟩ := reads_bind.mp h
      have hread' : Reads (readBlock final inner .sino line block.rest)
        (block'.value.1, block'.value.2) block'.rest := reads_of_eq hblock'
      obtain ⟨hk', otherwise, hotherwise, hcontent'⟩ := (reads_readBlock hinner).mp hread'
      obtain ⟨rfl, rfl⟩ := reads_ok.mp h
      have hfin : block'.value.2 = .finSi := by
        revert hk'
        cases block'.value.2 <;> simp [BlockKind.closes]
      rw [hsino] at hbody
      rw [hfin] at hotherwise
      refine .inr ⟨body, block.rest, otherwise, hbody, hotherwise, ?_⟩
      simp only [Parsed.map, ← hcontent, ← hcontent']
    case isFalse hsino =>
      obtain ⟨rfl, rfl⟩ := reads_ok.mp h
      have hfin : block.value.2 = .finSi := by
        revert hk hsino
        cases block.value.2 <;> simp [BlockKind.closes]
      rw [hfin] at hbody
      refine .inl ⟨body, hbody, ?_⟩
      simp only [Parsed.map, ← hcontent]
  · rintro ⟨d, us, hd, h⟩
    obtain ⟨hlt, he⟩ : Reads (Expr.read final ts) d.expr us := Expr.read_iff_front.mpr ⟨d, hd, rfl⟩
    refine ⟨_, he, ?_⟩
    rcases h with ⟨body, hbody, rfl⟩ | ⟨body, vs, otherwise, hbody, hotherwise, rfl⟩
    · obtain ⟨hlt', hblock⟩ : Reads (readBlock final inner .si line us) (_, .finSi) rest :=
        (reads_readBlock hinner).mpr ⟨rfl, body, hbody, rfl⟩
      refine reads_bind.mpr ⟨_, hblock, ?_⟩
      rw [if_neg (by simp)]
      exact reads_ok.mpr ⟨rfl, rfl⟩
    · obtain ⟨hlt', hblock⟩ : Reads (readBlock final inner .si line us) (_, .sino) vs :=
        (reads_readBlock hinner).mpr ⟨rfl, body, hbody, rfl⟩
      obtain ⟨hlt'', hblock'⟩ : Reads (readBlock final inner .sino line vs) (_, .finSi) rest :=
        (reads_readBlock hinner).mpr ⟨rfl, otherwise, hotherwise, rfl⟩
      refine reads_bind.mpr ⟨_, hblock, ?_⟩
      rw [if_pos rfl]
      exact reads_bind.mpr ⟨_, hblock', reads_ok.mpr ⟨rfl, rfl⟩⟩

theorem reads_read {inner : SectionReader} (hinner : inner.Takes n) {s : Statement} :
    Reads (read final inner ts) s rest ↔
      ∃ item : Item, item.Front n ts rest ∧ ofItem? item = some s := by
  constructor
  · intro h
    cases ts with
    | nil => exact (reads_error h).elim
    | cons t ts =>
      rw [read] at h
      split at h
      case h_1 name ht =>
        obtain ⟨equal, us, d, rfl, he, hd, rfl⟩ := reads_readAssign.mp (reads_map_ofTail.mp h)
        exact ⟨_, .assign ht he hd, rfl⟩
      case h_2 ht =>
        obtain ⟨d, us, hd, h⟩ := (reads_readBranch hinner).mp (reads_map_ofTail.mp h)
        rcases h with ⟨body, hbody, rfl⟩ | ⟨body, vs, otherwise, hbody, hotherwise, rfl⟩
        · exact ⟨_, .branch ht hd hbody, rfl⟩
        · exact ⟨_, .branchElse ht hd hbody hotherwise, rfl⟩
      case h_3 ht =>
        obtain ⟨d, us, body, hd, hbody, rfl⟩ := (reads_readLoop hinner).mp (reads_map_ofTail.mp h)
        exact ⟨_, .loop ht hd hbody, rfl⟩
      case h_4 ht =>
        obtain ⟨d, hd, rfl⟩ := reads_readDisplay.mp (reads_map_ofTail.mp h)
        exact ⟨_, .display ht hd, rfl⟩
      case h_5 ht =>
        obtain ⟨target, name, rfl, hk, rfl⟩ := reads_readInput.mp (reads_map_ofTail.mp h)
        exact ⟨_, .input ht hk, rfl⟩
      case h_6 => exact (reads_error h).elim
  · rintro ⟨item, h, hs⟩
    cases h with
    | assign ht he hd =>
      cases hs
      simp only [read, ht]
      exact reads_map_ofTail.mpr (reads_readAssign.mpr ⟨_, _, _, rfl, he, hd, rfl⟩)
    | display ht hd =>
      cases hs
      simp only [read, ht]
      exact reads_map_ofTail.mpr (reads_readDisplay.mpr ⟨_, hd, rfl⟩)
    | input ht hk =>
      cases hs
      simp only [read, ht]
      exact reads_map_ofTail.mpr (reads_readInput.mpr ⟨_, _, rfl, hk, rfl⟩)
    | branch ht hd hb =>
      cases hs
      simp only [read, ht]
      exact reads_map_ofTail.mpr ((reads_readBranch hinner).mpr ⟨_, _, hd, .inl ⟨_, hb, rfl⟩⟩)
    | branchElse ht hd hb ho =>
      cases hs
      simp only [read, ht]
      exact reads_map_ofTail.mpr
        ((reads_readBranch hinner).mpr ⟨_, _, hd, .inr ⟨_, _, _, hb, ho, rfl⟩⟩)
    | loop ht hd hb =>
      cases hs
      simp only [read, ht]
      exact reads_map_ofTail.mpr ((reads_readLoop hinner).mpr ⟨_, _, _, hd, hb, rfl⟩)
    | directive => cases hs

end Statement

/-! ## Sections -/

namespace Section

theorem leaves_ok {s : Section ts} : Leaves (.ok s) c rest ↔ s.content = c ∧ s.rest = rest := by
  constructor
  · rintro ⟨h, hs⟩
    cases hs
    exact ⟨rfl, rfl⟩
  · rintro ⟨rfl, rfl⟩
    exact ⟨s.le, rfl⟩

theorem leaves_prepend {x : Except SyntaxError (Section us)} {f : Content → Content}
    {h : us.length ≤ ts.length} :
    Leaves (x >>= fun s => .ok (s.prepend f h)) c rest ↔ ∃ c', Leaves x c' rest ∧ f c' = c := by
  constructor
  · rintro ⟨hle, heq⟩
    obtain ⟨s, hs, heq⟩ := Except.bind_eq_ok_iff.mp heq
    obtain ⟨rfl, rfl⟩ := leaves_ok.mp ⟨hle, heq⟩
    exact ⟨s.content, ⟨s.le, hs⟩, rfl⟩
  · rintro ⟨c', ⟨hle, rfl⟩, rfl⟩
    exact leaves_ok.mpr ⟨rfl, rfl⟩

theorem leaves_line {α : Type} {x : Except SyntaxError (Parsed α us)}
    {y : (ts : List Token) → Except SyntaxError (Section ts)} {f : α → Content → Content}
    {h : ∀ (p : Parsed α us) (next : { rest : List Token // rest.length ≤ p.rest.length }),
      next.val.length ≤ ts.length} :
    Leaves (x >>= fun p => endLine final p.rest >>= fun next => y next.val >>= fun s =>
      .ok (s.prepend (f p.value) (h p next) : Section ts)) c rest ↔
      ∃ a vs lineEnd ws c', Reads x a vs ∧ EndsWith vs lineEnd ws ∧ Leaves (y ws) c' rest ∧
        f a c' = c := by
  constructor
  · rintro ⟨hle, heq⟩
    obtain ⟨p, hp, heq⟩ := Except.bind_eq_ok_iff.mp heq
    obtain ⟨next, hnext, heq⟩ := Except.bind_eq_ok_iff.mp heq
    obtain ⟨c', hc', hc⟩ := leaves_prepend.mp ⟨hle, heq⟩
    obtain ⟨lineEnd, hline⟩ := endLine_eq_ok_iff.mp ⟨next.property, hnext⟩
    exact ⟨p.value, p.rest, lineEnd, next.val, c', reads_of_eq hp, hline, hc', hc⟩
  · rintro ⟨a, vs, lineEnd, ws, c', ⟨hlt, rfl⟩, hline, hc', rfl⟩
    obtain ⟨hle, hnext⟩ : ∃ h, endLine final vs = .ok ⟨ws, h⟩ :=
      endLine_eq_ok_iff.mpr ⟨lineEnd, hline⟩
    obtain ⟨hle', heq⟩ : Leaves (y ws >>= fun s =>
        .ok (s.prepend (f a) (h ⟨a, vs, hlt⟩ ⟨ws, hle⟩) : Section ts)) (f a c') rest :=
      leaves_prepend.mpr ⟨c', hc', rfl⟩
    refine ⟨hle', ?_⟩
    rw [← heq]
    simp only [hnext, bind, Except.bind]

theorem leaves_empty {h : ts.length ≤ ts.length} (hts : EndsSection ts) :
    Leaves (.ok ⟨.empty, ts, h⟩) c rest ↔
      ∃ b : Block, b.Front (n + 1) ts rest ∧ b.content = c := by
  simp only [Block.front_of_ends hts, leaves_ok]
  constructor
  · rintro ⟨rfl, rfl⟩
    exact ⟨_, ⟨rfl, rfl⟩, rfl⟩
  · rintro ⟨_, ⟨rfl, rfl⟩, rfl⟩
    exact ⟨rfl, rfl⟩

theorem content_line_statement {item : Item} {s : Statement} {lineEnd : Option Token} {b : Block}
    (h : Statement.ofItem? item = some s) :
    (Block.line [] item lineEnd b).content = .cons s.instruction s.directives b.content := by
  obtain ⟨i, hi, rfl⟩ := Option.map_eq_some_iff.mp h
  simp [Block.content, Block.instructions, Block.directives, Content.cons, hi]

theorem ofItem?_isSome {item : Item} (h : item.Front n (t :: ts) us) (ht : t.kind ≠ .directive) :
    ∃ s, Statement.ofItem? item = some s := by
  cases h with
  | directive hk => exact absurd hk ht
  | _ => exact ⟨_, rfl⟩

/-- The lines of a section are read just where a derivation of a block stands. -/
theorem leaves_readLines {inner : SectionReader} (hinner : inner.Takes n) :
    Leaves (readLines final inner ts) c rest ↔
      ∃ b : Block, b.Front (n + 1) ts rest ∧ b.content = c := by
  induction hlen : ts.length using Nat.strongRecOn generalizing ts c with
  | ind len ih =>
    rw [readLines.eq_def]
    cases ts with
    | nil => exact leaves_empty (by rintro _ ⟨⟩)
    | cons t ts =>
      simp only
      split
      case isTrue hend => exact leaves_empty (by rintro _ ⟨⟩; exact hend)
      case isFalse hend =>
        split
        case isTrue ht =>
          simp only [leaves_prepend, Block.front_newline ht]
          have hlt : ts.length < len := hlen ▸ Nat.lt_succ_self _
          constructor
          · rintro ⟨_, h, rfl⟩
            obtain ⟨b, hb, rfl⟩ := (ih _ hlt rfl).mp h
            exact ⟨_, ⟨b, rfl, hb⟩, Block.content_addBlank⟩
          · rintro ⟨_, ⟨b, rfl, hb⟩, rfl⟩
            exact ⟨_, (ih _ hlt rfl).mpr ⟨b, hb, rfl⟩, Block.content_addBlank.symm⟩
        case isFalse ht =>
          simp only [Block.front_line ht hend]
          split
          case isTrue hdir =>
            rw [leaves_line]
            constructor
            · rintro ⟨d, us, lineEnd, ws, c', hd, hline, hc', rfl⟩
              have hlt := Nat.lt_of_le_of_lt hline.length_le hd.shorter
              obtain ⟨b, hb, rfl⟩ := (ih _ (by rw [← hlen]; exact Nat.lt_succ_of_lt hlt) rfl).mp hc'
              obtain ⟨line, hts, -, hread⟩ := Directive.read_iff.mp hd
              exact ⟨_, ⟨_, us, lineEnd, ws, b, rfl, .directive hdir hread hts.symm, hline, hb⟩, rfl⟩
            · rintro ⟨_, ⟨item, us, lineEnd, ws, b, rfl, hitem, hline, hb⟩, rfl⟩
              have hlt := Nat.lt_of_le_of_lt hline.length_le (hitem.head hline.endsLine).2
              have hc' := (ih _ (hlen ▸ hlt) rfl).mpr ⟨b, hb, rfl⟩
              cases hitem with
              | directive _ hread hts =>
                exact ⟨_, us, lineEnd, ws, _,
                  Directive.read_iff.mpr ⟨_, hts.symm, hline.endsLine, hread⟩, hline, hc', rfl⟩
              | _ => simp_all
          case isFalse hdir =>
            rw [leaves_line (f := fun s : Statement => .cons s.instruction s.directives)]
            constructor
            · rintro ⟨s, us, lineEnd, ws, c', hs, hline, hc', rfl⟩
              have hlt := Nat.lt_of_le_of_lt hline.length_le hs.shorter
              obtain ⟨b, hb, rfl⟩ := (ih _ (hlen ▸ hlt) rfl).mp hc'
              obtain ⟨item, hitem, his⟩ := (Statement.reads_read hinner).mp hs
              exact ⟨_, ⟨item, us, lineEnd, ws, b, rfl, hitem, hline, hb⟩, content_line_statement his⟩
            · rintro ⟨_, ⟨item, us, lineEnd, ws, b, rfl, hitem, hline, hb⟩, rfl⟩
              have hlt := Nat.lt_of_le_of_lt hline.length_le (hitem.head hline.endsLine).2
              have hc' := (ih _ (hlen ▸ hlt) rfl).mpr ⟨b, hb, rfl⟩
              obtain ⟨s, his⟩ := ofItem?_isSome hitem hdir
              exact ⟨s, us, lineEnd, ws, _, (Statement.reads_read hinner).mpr ⟨item, hitem, his⟩, hline,
                hc', (content_line_statement his).symm⟩

theorem takes_zero : SectionReader.Takes 0 fun line _ => .error (.tooDeep line) := by
  intro line ts c rest
  constructor
  · rintro ⟨_, h⟩
    cases h
  · rintro ⟨b, hb, -⟩
    exact absurd hb.depth (Nat.not_lt_zero _)

theorem takes_read (final : Span) (n : Nat) :
    SectionReader.Takes (n + 1) fun _ => read final n := by
  induction n with
  | zero => exact fun line ts c rest => leaves_readLines takes_zero
  | succ n ih => exact fun line ts c rest => leaves_readLines ih

end Section

/-! ## Whole programs -/

theorem Content.ofTokens_eq_ok_iff : Content.ofTokens ts = .ok c ↔
    ∃ rest, AtEnd rest ∧ ∃ b : Block, b.Front (maxNesting + 1) ts rest ∧ b.content = c := by
  have hread := fun c rest => Section.takes_read (lastSpan ts) maxNesting 0 ts c rest
  constructor
  · intro h
    obtain ⟨s, hs, h⟩ := Except.bind_eq_ok_iff.mp h
    obtain ⟨b, hb, hc⟩ := (hread s.content s.rest).mp ⟨s.le, hs⟩
    split at h
    case h_1 hnil =>
      cases h
      exact ⟨s.rest, by rw [hnil]; rintro _ ⟨⟩, b, hb, hc⟩
    case h_2 t rest hrest =>
      split at h
      case isTrue ht =>
        cases h
        exact ⟨s.rest, by rw [hrest]; rintro _ ⟨⟩; exact ht, b, hb, hc⟩
      case isFalse => cases h
  · rintro ⟨rest, hend, b, hb, rfl⟩
    obtain ⟨hle, hs⟩ := (hread b.content rest).mpr ⟨b, hb, rfl⟩
    simp only [Content.ofTokens, hs, bind, Except.bind]
    cases rest with
    | nil => rfl
    | cons t rest => exact if_pos (hend t rfl)

end Pseudocode
