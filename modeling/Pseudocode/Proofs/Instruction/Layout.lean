import Mathlib.Data.List.Forall2
import Pseudocode.Proofs.Instruction.Reading

/-! # Programs line by line

A statement without blocks stands on a line, and so does a directive. A branch or a loop has a line on which
it begins, lines for its blocks, and lines that close them. So the content of a program can be told from its
lines, and blank lines are of no account. Its directives are those on the lines, in the same order, and its
instructions are built from the other lines alone.
-/

namespace Pseudocode

open Directive (onLine onLine_iff EndsLine)

variable {n m : Nat} {t : Token} {ts us vs row rest : List Token} {xs ys : List (List Token)}

/-! ## Lines of tokens -/

/-- The lines with tokens on them up to the end of input, without their line breaks. -/
def Token.rows : List Token → List (List Token)
  | [] => []
  | t :: ts =>
    if t.kind = .endOfInput then []
    else if t.kind = .newline then rows ts
    else if ts.head?.any onLine then (rows ts).modifyHead (t :: ·)
    else [t] :: rows ts

namespace Token

theorem rows_of_atEnd (h : AtEnd ts) : Token.rows ts = [] := by
  cases ts with
  | nil => rfl
  | cons t ts => rw [Token.rows, if_pos (h t rfl)]

theorem rows_newline (ht : t.kind = .newline) : Token.rows (t :: ts) = Token.rows ts := by
  rw [Token.rows, if_neg (by simp [ht]), if_pos ht]

theorem rows_newlines (hts : ∀ t ∈ ts, t.kind = .newline) :
    Token.rows (ts ++ us) = Token.rows us := by
  induction ts with
  | nil => rfl
  | cons t ts ih =>
    rw [List.forall_mem_cons] at hts
    rw [List.cons_append, rows_newline hts.1, ih hts.2]

theorem any_head_of_endsLine (h : EndsLine ts) : ts.head?.any onLine = false := by
  cases ts with
  | nil => rfl
  | cons t ts => simpa using h t rfl

theorem rows_append (hne : row ≠ []) (hrow : ∀ t ∈ row, onLine t) (hrest : EndsLine rest) :
    Token.rows (row ++ rest) = row :: Token.rows rest := by
  induction row with
  | nil => exact absurd rfl hne
  | cons t row ih =>
    rw [List.forall_mem_cons] at hrow
    obtain ⟨hnewline, hend⟩ := onLine_iff.mp hrow.1
    rw [List.cons_append, Token.rows, if_neg hend, if_neg hnewline]
    cases row with
    | nil => rw [List.nil_append, if_neg (by simp [any_head_of_endsLine hrest])]
    | cons u row =>
      have hu : ((u :: row ++ rest).head?).any onLine = true := hrow.2 u List.mem_cons_self
      rw [if_pos hu, ih (List.cons_ne_nil u row) hrow.2, List.modifyHead_cons]

theorem rows_of_endsWith {lineEnd : Option Token} (h : EndsWith us lineEnd vs) :
    Token.rows us = Token.rows vs := by
  cases h with
  | newline ht => exact rows_newline ht
  | atEnd => rfl

theorem exists_newlines (ts : List Token) : ∃ ns us, ts = ns ++ us ∧ (∀ t ∈ ns, t.kind = .newline) ∧
    (AtEnd us ∨ ∃ row rest, us = row ++ rest ∧ row ≠ [] ∧ (∀ t ∈ row, onLine t) ∧ EndsLine rest) := by
  induction ts with
  | nil => exact ⟨[], [], rfl, nofun, .inl nofun⟩
  | cons t ts ih =>
    by_cases hnewline : t.kind = .newline
    · obtain ⟨ns, us, rfl, hns, hus⟩ := ih
      exact ⟨t :: ns, us, rfl, List.forall_mem_cons.mpr ⟨hnewline, hns⟩, hus⟩
    · refine ⟨[], t :: ts, rfl, nofun, ?_⟩
      by_cases hend : t.kind = .endOfInput
      · left
        rintro _ ⟨⟩
        exact hend
      · obtain ⟨row, rest, hrow, honLine, hrest⟩ := Directive.exists_line ts
        refine .inr ⟨t :: row, rest, by rw [hrow, List.cons_append], List.cons_ne_nil t row, ?_, hrest⟩
        exact List.forall_mem_cons.mpr ⟨onLine_iff.mpr ⟨hnewline, hend⟩, honLine⟩

theorem exists_of_rows_eq_nil (h : Token.rows ts = []) :
    ∃ ns us, ts = ns ++ us ∧ (∀ t ∈ ns, t.kind = .newline) ∧ AtEnd us := by
  obtain ⟨ns, us, rfl, hns, hus | ⟨row, rest, rfl, hne, hrow, hrest⟩⟩ := exists_newlines ts
  · exact ⟨ns, us, rfl, hns, hus⟩
  · rw [rows_newlines hns, rows_append hne hrow hrest] at h
    cases h

theorem exists_of_rows_eq_cons (h : Token.rows ts = row :: xs) :
    ∃ ns us, ts = ns ++ (row ++ us) ∧ (∀ t ∈ ns, t.kind = .newline) ∧ row ≠ [] ∧
      (∀ t ∈ row, onLine t) ∧ EndsLine us ∧ Token.rows us = xs := by
  obtain ⟨ns, us, rfl, hns, hus | ⟨row', rest, rfl, hne, hrow, hrest⟩⟩ := exists_newlines ts
  · rw [rows_newlines hns, rows_of_atEnd hus] at h
    cases h
  · rw [rows_newlines hns, rows_append hne hrow hrest] at h
    obtain ⟨rfl, rfl⟩ := List.cons.inj h
    exact ⟨ns, rest, rfl, hns, hne, hrow, hrest, rfl⟩

end Token

/-! ## What stands on a line -/

/-- What stands on a line: a statement without blocks, the beginning of a branch or of a loop, what closes a
block, or a directive. -/
inductive Line where
  | plain (i : Instruction)
  | branch (condition : Expr) (line : Nat)
  | loop (condition : Expr) (line : Nat)
  | close (k : Keyword)
  | directive (d : Directive)

namespace Line

inductive Spelled : List Token → Line → Prop where
  | assign {t equal : Token} {name : String} {d : Phrase} : t.kind = .identifier name →
    equal.kind = .symbol .equal → d.Grammatical → d.nesting ≤ maxNesting →
      Spelled (t :: equal :: d.tokens) (.plain (.assign name d.expr t.span.line))
  | display {t : Token} {d : Phrase} : t.kind = .keyword .mostrar → d.Grammatical →
    d.nesting ≤ maxNesting → Spelled (t :: d.tokens) (.plain (.display d.expr t.span.line))
  | input {t target : Token} {name : String} : t.kind = .keyword .leer →
    target.kind = .identifier name → Spelled [t, target] (.plain (.input name t.span.line))
  | branch {t : Token} {d : Phrase} : t.kind = .keyword .si → d.Grammatical →
    d.nesting ≤ maxNesting → Spelled (t :: d.tokens) (.branch d.expr t.span.line)
  | loop {t : Token} {d : Phrase} : t.kind = .keyword .mientras → d.Grammatical →
    d.nesting ≤ maxNesting → Spelled (t :: d.tokens) (.loop d.expr t.span.line)
  | close {t : Token} {k : Keyword} : t.kind = .keyword k → Spelled [t] (.close k)
  | directive {t : Token} {others : List Token} {d : Directive} : t.kind = .directive →
    (∃ final, Reads (Directive.read final t.span.line others) d []) →
      Spelled (t :: others) (.directive d)

def directive? : Line → Option Directive
  | .directive d => some d
  | .plain _ | .branch .. | .loop .. | .close _ => none

/-- The lines build the instructions, with at most `n` blocks open at once. -/
inductive Builds : Nat → List Line → List Instruction → Prop where
  | nil {n : Nat} : Builds n [] []
  | plain {n : Nat} {i : Instruction} {ls : List Line} {is : List Instruction} :
    Builds n ls is → Builds n (.plain i :: ls) (i :: is)
  | directive {n : Nat} {d : Directive} {ls : List Line} {is : List Instruction} :
    Builds n ls is → Builds n (.directive d :: ls) is
  | branch {n line : Nat} {e : Expr} {body ls : List Line} {inner is : List Instruction} :
    Builds n body inner → Builds (n + 1) ls is →
      Builds (n + 1) (.branch e line :: (body ++ .close .finSi :: ls))
        (.branch e inner none line :: is)
  | branchElse {n line : Nat} {e : Expr} {body otherwise ls : List Line}
      {inner inner' is : List Instruction} :
    Builds n body inner → Builds n otherwise inner' → Builds (n + 1) ls is →
      Builds (n + 1) (.branch e line :: (body ++ .close .sino :: (otherwise ++ .close .finSi :: ls)))
        (.branch e inner (some inner') line :: is)
  | loop {n line : Nat} {e : Expr} {body ls : List Line} {inner is : List Instruction} :
    Builds n body inner → Builds (n + 1) ls is →
      Builds (n + 1) (.loop e line :: (body ++ .close .finMientras :: ls)) (.loop e inner line :: is)

variable {l : Line} {i : Instruction} {d : Directive} {e : Expr} {line : Nat} {k : Keyword}

theorem Spelled.ne_nil (h : Spelled row l) : row ≠ [] := by
  cases h <;> exact List.cons_ne_nil _ _

theorem Spelled.onLine (h : Spelled row l) : ∀ t ∈ row, onLine t := by
  cases h with
  | assign ht he hd _ =>
    simpa [onLine_iff, ht, he] using fun t ht => onLine_iff.mp (Directive.onLine_of_phrase hd t ht)
  | input ht he => simp [onLine_iff, ht, he]
  | close ht => simp [onLine_iff, ht]
  | directive ht hd =>
    obtain ⟨final, hd⟩ := hd
    simpa [onLine_iff, ht] using fun t ht => onLine_iff.mp (Directive.onLine_of_read hd t ht)
  | display ht hd | branch ht hd | loop ht hd =>
    simpa [onLine_iff, ht] using fun t ht => onLine_iff.mp (Directive.onLine_of_phrase hd t ht)

theorem Spelled.rows (h : Spelled row l) (hrest : EndsLine rest) :
    Token.rows (row ++ rest) = row :: Token.rows rest :=
  Token.rows_append h.ne_nil h.onLine hrest

/-! ## From a derivation to its lines -/

/-- The tokens up to the rest are lines that build the content. -/
def Lays (n : Nat) (ts rest : List Token) (c : Content) : Prop :=
  ∃ xs ls, Token.rows ts = xs ++ Token.rows rest ∧ List.Forall₂ Spelled xs ls ∧
    Builds n ls c.instructions ∧ ls.filterMap directive? = c.directives

variable {b b' c : Content}

theorem lays_empty (h : Token.rows ts = Token.rows rest) : Lays n ts rest .empty :=
  ⟨[], [], h, .nil, .nil, rfl⟩

theorem Lays.of_rows (h : Lays n us rest c) (hts : Token.rows ts = Token.rows us) :
    Lays n ts rest c := by
  obtain ⟨xs, ls, hrows, hls⟩ := h
  exact ⟨xs, ls, hts.trans hrows, hls⟩

theorem Lays.plain (hrow : Spelled row (.plain i)) (hus : EndsLine us) (h : Lays n us rest c) :
    Lays n (row ++ us) rest (c.cons i []) := by
  obtain ⟨xs, ls, hrows, hls, hbuilds, hdirectives⟩ := h
  exact ⟨row :: xs, .plain i :: ls, by rw [hrow.rows hus, hrows, List.cons_append], .cons hrow hls,
    .plain hbuilds, hdirectives⟩

theorem Lays.directive (hrow : Spelled row (.directive d)) (hus : EndsLine us) (h : Lays n us rest c) :
    Lays n (row ++ us) rest (c.consDirective d) := by
  obtain ⟨xs, ls, hrows, hls, hbuilds, hdirectives⟩ := h
  exact ⟨row :: xs, .directive d :: ls, by rw [hrow.rows hus, hrows, List.cons_append],
    .cons hrow hls, .directive hbuilds, congrArg (d :: ·) hdirectives⟩

theorem Lays.exists_closed (h : Lays n ts (t :: us) b) (ht : t.kind = .keyword k)
    (hus : EndsLine us) : ∃ xs ls, Token.rows ts = xs ++ [t] :: Token.rows us ∧
      List.Forall₂ Spelled xs ls ∧ Builds n ls b.instructions ∧
      ls.filterMap directive? = b.directives ∧ Spelled [t] (.close k) := by
  obtain ⟨xs, ls, hrows, hls⟩ := h
  have hclose : Spelled [t] (.close k) := .close ht
  have hrow := hclose.rows hus
  rw [List.singleton_append] at hrow
  exact ⟨xs, ls, hrow ▸ hrows, hls.1, hls.2.1, hls.2.2, hclose⟩

theorem Lays.loop (hrow : Spelled row (.loop e line)) (hts : EndsLine ts) (hb : Lays n ts (t :: us) b)
    (ht : t.kind = .keyword .finMientras) (hus : EndsLine us) (h : Lays (n + 1) us rest c) :
    Lays (n + 1) (row ++ ts) rest (c.cons (.loop e b.instructions line) b.directives) := by
  obtain ⟨xs, ls, hrows, hls, hbuilds, hdirectives, hclose⟩ := hb.exists_closed ht hus
  obtain ⟨ys, ms, hrows', hms, hbuilds', hdirectives'⟩ := h
  refine ⟨row :: (xs ++ [t] :: ys), .loop e line :: (ls ++ .close .finMientras :: ms), ?_,
    .cons hrow (List.rel_append hls (.cons hclose hms)), .loop hbuilds hbuilds', ?_⟩
  · rw [hrow.rows hts, hrows, hrows']
    simp
  · simp [List.filterMap_cons, directive?, hdirectives, hdirectives', Content.cons]

theorem Lays.branch (hrow : Spelled row (.branch e line)) (hts : EndsLine ts)
    (hb : Lays n ts (t :: us) b) (ht : t.kind = .keyword .finSi) (hus : EndsLine us)
    (h : Lays (n + 1) us rest c) :
    Lays (n + 1) (row ++ ts) rest (c.cons (.branch e b.instructions none line) b.directives) := by
  obtain ⟨xs, ls, hrows, hls, hbuilds, hdirectives, hclose⟩ := hb.exists_closed ht hus
  obtain ⟨ys, ms, hrows', hms, hbuilds', hdirectives'⟩ := h
  refine ⟨row :: (xs ++ [t] :: ys), .branch e line :: (ls ++ .close .finSi :: ms), ?_,
    .cons hrow (List.rel_append hls (.cons hclose hms)), .branch hbuilds hbuilds', ?_⟩
  · rw [hrow.rows hts, hrows, hrows']
    simp
  · simp [List.filterMap_cons, directive?, hdirectives, hdirectives', Content.cons]

theorem Lays.branchElse {u : Token} (hrow : Spelled row (.branch e line)) (hts : EndsLine ts)
    (hb : Lays n ts (t :: us) b) (ht : t.kind = .keyword .sino) (hus : EndsLine us)
    (ho : Lays n us (u :: vs) b') (hu : u.kind = .keyword .finSi) (hvs : EndsLine vs)
    (h : Lays (n + 1) vs rest c) :
    Lays (n + 1) (row ++ ts) rest
      (c.cons (.branch e b.instructions (some b'.instructions) line) (b.directives ++ b'.directives)) := by
  obtain ⟨xs, ls, hrows, hls, hbuilds, hdirectives, hclose⟩ := hb.exists_closed ht hus
  obtain ⟨xs', ls', hrows', hls', hbuilds', hdirectives', hclose'⟩ := ho.exists_closed hu hvs
  obtain ⟨ys, ms, hrows'', hms, hbuilds'', hdirectives''⟩ := h
  refine ⟨row :: (xs ++ [t] :: (xs' ++ [u] :: ys)),
    .branch e line :: (ls ++ .close .sino :: (ls' ++ .close .finSi :: ms)), ?_,
    .cons hrow (List.rel_append hls (.cons hclose (List.rel_append hls' (.cons hclose' hms)))),
    .branchElse hbuilds hbuilds' hbuilds'', ?_⟩
  · rw [hrow.rows hts, hrows, hrows', hrows'']
    simp
  · simp [List.filterMap_cons, directive?, hdirectives, hdirectives', hdirectives'', Content.cons]

end Line

section Inner

open Line

-- the blocks inside a statement, in which one block less may be open
variable (hinner : ∀ {ts rest : List Token} {b : Block}, b.Front n ts rest →
  ∃ m, n = m + 1 ∧ Lays m ts rest b.content)

include hinner

theorem Nested.Front.lays {k : Keyword} {d : Nested} (h : d.Front n k ts rest) :
    ∃ m t, n = m + 1 ∧ EndsLine ts ∧ t.kind = .keyword k ∧
      Lays m ts (t :: rest) ⟨d.instructions, d.directives⟩ := by
  obtain ⟨newline, b, closing⟩ := d
  obtain ⟨hn, hc, us, rfl, hb⟩ := h
  obtain ⟨m, rfl, hlays⟩ := hinner hb
  exact ⟨m, closing, rfl, (EndsWith.newline hn).endsLine, hc, hlays.of_rows (Token.rows_newline hn)⟩

theorem Item.Front.lays {item : Item} {c : Content} (h : item.Front n ts us) (hus : EndsLine us)
    (hrest : Lays n us rest c) : Lays n ts rest
      ⟨item.instruction?.toList ++ c.instructions, item.directives ++ c.directives⟩ := by
  cases h with
  | assign ht he hd =>
    obtain ⟨hg, hnest, -, rfl, -⟩ := hd
    exact .plain (.assign ht he hg hnest) hus hrest
  | display ht hd =>
    obtain ⟨hg, hnest, -, rfl, -⟩ := hd
    exact .plain (.display ht hg hnest) hus hrest
  | input ht hu => exact .plain (.input ht hu) hus hrest
  | branch ht hd hb =>
    obtain ⟨hg, hnest, -, rfl, -⟩ := hd
    obtain ⟨m, t, rfl, hends, hkind, hlays⟩ := hb.lays hinner
    exact .branch (.branch ht hg hnest) hends hlays hkind hus hrest
  | branchElse ht hd hb ho =>
    obtain ⟨hg, hnest, -, rfl, -⟩ := hd
    obtain ⟨m, t, rfl, hends, hkind, hlays⟩ := hb.lays hinner
    obtain ⟨m', u, hm, hends', hkind', hlays'⟩ := ho.lays hinner
    obtain rfl := Nat.succ.inj hm
    exact .branchElse (.branch ht hg hnest) hends hlays hkind hends' hlays' hkind' hus hrest
  | loop ht hd hb =>
    obtain ⟨hg, hnest, -, rfl, -⟩ := hd
    obtain ⟨m, t, rfl, hends, hkind, hlays⟩ := hb.lays hinner
    exact .loop (.loop ht hg hnest) hends hlays hkind hus hrest
  | directive ht hd hts =>
    subst hts
    exact .directive (.directive ht hd) hus hrest

theorem Block.Front.lays_of_inner {b : Block} (h : b.Front (n + 1) ts rest) :
    Lays n ts rest b.content := by
  -- along the lines of the block, from the first one on
  induction hlen : ts.length using Nat.strongRecOn generalizing ts b with
  | ind len ih =>
    by_cases hts : EndsSection ts
    · obtain ⟨rfl, rfl⟩ := (Block.front_of_ends hts).mp h
      exact lays_empty rfl
    cases ts with
    | nil => exact absurd (by rintro _ ⟨⟩) hts
    | cons t ts =>
      by_cases ht : t.kind = .newline
      · obtain ⟨b, rfl, hb⟩ := (Block.front_newline ht).mp h
        rw [Block.content_addBlank]
        have hlays := ih ts.length (by rw [← hlen]; exact Nat.lt_succ_self _) hb rfl
        exact hlays.of_rows (Token.rows_newline ht)
      · have hend : ¬ Section.isEnd t := fun he => hts (by rintro _ ⟨⟩; exact he)
        obtain ⟨item, us, lineEnd, vs, b, rfl, hitem, hline, hb⟩ := (Block.front_line ht hend).mp h
        have hlt : vs.length < len :=
          hlen ▸ Nat.lt_of_le_of_lt hline.length_le (hitem.head hline.endsLine).2
        have hrest := (ih vs.length hlt hb rfl).of_rows (Token.rows_of_endsWith hline)
        exact hitem.lays hinner hline.endsLine hrest

end Inner

/-- A block in front of other tokens is made of lines that build it. -/
theorem Block.Front.lays {b : Block} (h : b.Front (n + 1) ts rest) :
    Line.Lays n ts rest b.content := by
  induction n generalizing ts rest b with
  | zero => exact h.lays_of_inner fun hb => absurd hb.depth (Nat.not_lt_zero _)
  | succ n ihn => exact h.lays_of_inner fun hb => ⟨n, rfl, ihn hb⟩

/-! ## From lines to a derivation -/

theorem EndsSection.eq_nil {ns : List Token} (h : EndsSection (ns ++ us))
    (hns : ∀ t ∈ ns, t.kind = .newline) : ns = [] := by
  cases ns with
  | nil => rfl
  | cons t ns =>
    have ht := h t rfl
    simp [Section.isEnd, hns t List.mem_cons_self] at ht

namespace Block

/-- Some block within the limits stands in front of the tokens and has the content; the rest begins with the
rows. -/
def Stands (n : Nat) (ts : List Token) (c : Content) (ys : List (List Token)) : Prop :=
  ∃ (b : Block) (rest : List Token), b.Front (n + 1) ts rest ∧ b.content = c ∧ Token.rows rest = ys

variable {c : Content}

theorem Stands.newlines {ns : List Token} (hns : ∀ t ∈ ns, t.kind = .newline) (h : Stands n ts c ys) :
    Stands n (ns ++ ts) c ys := by
  induction ns with
  | nil => exact h
  | cons t ns ih =>
    rw [List.forall_mem_cons] at hns
    obtain ⟨b, rest, hb, hc, hys⟩ := ih hns.2
    exact ⟨b.addBlank t, rest, (front_newline hns.1).mpr ⟨b, rfl, hb⟩, by rw [content_addBlank, hc], hys⟩

theorem exists_endsWith (h : EndsLine us) : ∃ lineEnd vs, EndsWith us lineEnd vs := by
  cases us with
  | nil => exact ⟨none, [], .atEnd nofun⟩
  | cons u us =>
    by_cases hu : u.kind = .newline
    · exact ⟨some u, us, .newline hu⟩
    · refine ⟨none, u :: us, .atEnd ?_⟩
      rintro _ ⟨⟩
      by_contra hend
      exact h u rfl (onLine_iff.mpr ⟨hu, hend⟩)

theorem Stands.line {item : Item} (hitem : item.Front n ts us) (hus : EndsLine us)
    (h : ∀ vs, Token.rows vs = Token.rows us → Stands n vs c ys) :
    Stands n ts ⟨item.instruction?.toList ++ c.instructions, item.directives ++ c.directives⟩ ys := by
  obtain ⟨lineEnd, vs, hline⟩ := exists_endsWith hus
  obtain ⟨b, rest, hb, rfl, hys⟩ := h vs (Token.rows_of_endsWith hline).symm
  obtain ⟨⟨t, ws, rfl, hend, hnewline⟩, -⟩ := hitem.head hus
  exact ⟨.line [] item lineEnd b, rest,
    (front_line hnewline hend).mpr ⟨item, us, lineEnd, vs, b, rfl, hitem, hline, hb⟩, rfl, hys⟩

theorem Stands.exists_nested (hts : EndsLine ts) {k : Keyword} (ht : t.kind = .keyword k)
    (hrows : Token.rows ts = xs ++ [t] :: ys)
    (h : ∀ us, Token.rows us = xs ++ [t] :: ys → Stands n us c ([t] :: ys)) :
    ∃ (d : Nested) (us : List Token), d.Front (n + 1) k ts us ∧ d.instructions = c.instructions ∧
      d.directives = c.directives ∧ EndsLine us ∧ Token.rows us = ys := by
  obtain ⟨lineEnd, vs, hline⟩ := exists_endsWith hts
  cases hline with
  | atEnd hend =>
    rw [Token.rows_of_atEnd hend] at hrows
    simp at hrows
  | @newline u _ hu =>
    rw [Token.rows_newline hu] at hrows
    obtain ⟨b, rest, hb, rfl, hrest⟩ := h vs hrows
    obtain ⟨ns, us, rfl, hns, -, -, hus, hys⟩ := Token.exists_of_rows_eq_cons hrest
    obtain rfl := hb.ends.eq_nil hns
    exact ⟨.mk u b t, us, ⟨hu, ht, vs, rfl, hb⟩, rfl, rfl, hus, hys⟩

end Block

namespace Line

variable {l : Line} {ls ms : List Line} {is : List Instruction} {i : Instruction} {k : Keyword}

theorem exists_first (h : List.Forall₂ Spelled xs (l :: ls)) (hrows : Token.rows ts = xs ++ ys) :
    ∃ ns row us xs', ts = ns ++ (row ++ us) ∧ (∀ t ∈ ns, t.kind = .newline) ∧ Spelled row l ∧
      EndsLine us ∧ Token.rows us = xs' ++ ys ∧ List.Forall₂ Spelled xs' ls := by
  obtain ⟨row, xs', hrow, hls, rfl⟩ := List.forall₂_cons_right_iff.mp h
  obtain ⟨ns, us, rfl, hns, -, -, hus, hrest⟩ := Token.exists_of_rows_eq_cons hrows
  exact ⟨ns, row, us, xs', rfl, hns, hrow, hus, hrest, hls⟩

theorem exists_close (h : List.Forall₂ Spelled xs (ls ++ .close k :: ms)) :
    ∃ as t bs, xs = as ++ [t] :: bs ∧ t.kind = .keyword k ∧ List.Forall₂ Spelled as ls ∧
      List.Forall₂ Spelled bs ms := by
  induction ls generalizing xs with
  | nil =>
    obtain ⟨row, bs, hrow, hbs, rfl⟩ := List.forall₂_cons_right_iff.mp h
    cases hrow with
    | @close t _ ht => exact ⟨[], t, bs, rfl, ht, .nil, hbs⟩
  | cons l ls ih =>
    obtain ⟨row, xs, hrow, hls, rfl⟩ := List.forall₂_cons_right_iff.mp h
    obtain ⟨as, t, bs, rfl, ht, has, hbs⟩ := ih hls
    exact ⟨row :: as, t, bs, rfl, ht, .cons hrow has, hbs⟩

theorem Spelled.exists_item (h : Spelled row (.plain i)) (hrest : EndsLine rest) :
    ∃ item : Item, item.Front n (row ++ rest) rest ∧ item.instruction? = some i ∧
      item.directives = [] := by
  have hstops : Stops 1 rest := .of_endsLine hrest
  cases h with
  | assign ht he hg hn =>
    exact ⟨_, .assign ht he (Phrase.front_of hg hn hstops), rfl, rfl⟩
  | display ht hg hn => exact ⟨_, .display ht (Phrase.front_of hg hn hstops), rfl, rfl⟩
  | input ht hu => exact ⟨_, .input ht hu, rfl, rfl⟩

/-- Lines that build instructions are those of a block for them. The lines are followed by what ends the
block, which is nothing or a line with a single keyword on it. -/
theorem Builds.stands (h : Builds n ls is) (hls : List.Forall₂ Spelled xs ls)
    (hrows : Token.rows ts = xs ++ ys) (hys : ∀ y ∈ ys.head?, ∃ t, y = [t] ∧ Section.isEnd t) :
    Block.Stands n ts ⟨is, ls.filterMap directive?⟩ ys := by
  induction h generalizing xs ys ts with
  | nil =>
    obtain rfl := List.forall₂_nil_right_iff.mp hls
    obtain ⟨ns, us, rfl, hns, hus⟩ := Token.exists_newlines ts
    rw [Token.rows_newlines hns, List.nil_append] at hrows
    refine .newlines hns ?_
    have hends : EndsSection us := by
      rcases hus with hus | ⟨row, rest, rfl, hne, hrow, hrest⟩
      · exact hus.endsSection
      · rw [Token.rows_append hne hrow hrest] at hrows
        obtain ⟨t, rfl, ht⟩ := hys row (by rw [← hrows]; rfl)
        rintro _ ⟨⟩
        exact ht
    exact ⟨.blank [], us, (Block.front_of_ends hends).mpr ⟨rfl, rfl⟩, rfl, hrows⟩
  | plain _ ih =>
    obtain ⟨ns, row, us, xs', rfl, hns, hrow, hus, hrest, hls⟩ := exists_first hls hrows
    obtain ⟨item, hitem, hi, hd⟩ := hrow.exists_item hus
    have hstands := Block.Stands.line hitem hus fun vs hvs => ih hls (hvs.trans hrest) hys
    rw [hi, hd] at hstands
    exact hstands.newlines hns
  | directive _ ih =>
    obtain ⟨ns, row, us, xs', rfl, hns, hrow, hus, hrest, hls⟩ := exists_first hls hrows
    cases hrow with
    | directive ht hd =>
      have hstands := Block.Stands.line (.directive ht hd rfl) hus
        fun vs hvs => ih hls (hvs.trans hrest) hys
      exact hstands.newlines hns
  | branch _ _ ihb ih =>
    obtain ⟨ns, row, us, xs', rfl, hns, hrow, hus, hrest, hls⟩ := exists_first hls hrows
    obtain ⟨as, t, bs, rfl, ht, has, hbs⟩ := exists_close hls
    have hend : Section.isEnd t := by simp [Section.isEnd, ht]
    rw [List.append_assoc, List.cons_append] at hrest
    obtain ⟨body, vs, hbody, hi, hd, hvs, hrest⟩ := Block.Stands.exists_nested hus ht hrest
      fun ws hws => ihb has hws (by simpa using hend)
    cases hrow with
    | branch hsi hg hn =>
      have hitem := Item.Front.branch hsi (Phrase.front_of hg hn (.of_endsLine hus)) hbody
      have hstands := Block.Stands.line hitem hvs fun ws hws => ih hbs (hws.trans hrest) hys
      simpa [List.filterMap_cons, directive?, Item.instruction?, Item.directives, hi, hd]
        using hstands.newlines hns
  | branchElse _ _ _ ihb iho ih =>
    obtain ⟨ns, row, us, xs', rfl, hns, hrow, hus, hrest, hls⟩ := exists_first hls hrows
    obtain ⟨as, t, bs, rfl, ht, has, hbs⟩ := exists_close hls
    obtain ⟨as', t', bs', rfl, ht', has', hbs'⟩ := exists_close hbs
    have hend : Section.isEnd t := by simp [Section.isEnd, ht]
    have hend' : Section.isEnd t' := by simp [Section.isEnd, ht']
    simp only [List.append_assoc, List.cons_append] at hrest
    obtain ⟨body, vs, hbody, hi, hd, hvs, hrest⟩ := Block.Stands.exists_nested hus ht hrest
      fun ws hws => ihb has hws (by simpa using hend)
    obtain ⟨otherwise, vs', hotherwise, hi', hd', hvs', hrest⟩ :=
      Block.Stands.exists_nested hvs ht' hrest fun ws hws => iho has' hws (by simpa using hend')
    cases hrow with
    | branch hsi hg hn =>
      have hitem := Item.Front.branchElse hsi (Phrase.front_of hg hn (.of_endsLine hus)) hbody
        hotherwise
      have hstands := Block.Stands.line hitem hvs' fun ws hws => ih hbs' (hws.trans hrest) hys
      simpa [List.filterMap_cons, directive?, Item.instruction?, Item.directives, hi, hd, hi', hd']
        using hstands.newlines hns
  | loop _ _ ihb ih =>
    obtain ⟨ns, row, us, xs', rfl, hns, hrow, hus, hrest, hls⟩ := exists_first hls hrows
    obtain ⟨as, t, bs, rfl, ht, has, hbs⟩ := exists_close hls
    have hend : Section.isEnd t := by simp [Section.isEnd, ht]
    rw [List.append_assoc, List.cons_append] at hrest
    obtain ⟨body, vs, hbody, hi, hd, hvs, hrest⟩ := Block.Stands.exists_nested hus ht hrest
      fun ws hws => ihb has hws (by simpa using hend)
    cases hrow with
    | loop hmientras hg hn =>
      have hitem := Item.Front.loop hmientras (Phrase.front_of hg hn (.of_endsLine hus)) hbody
      have hstands := Block.Stands.line hitem hvs fun ws hws => ih hbs (hws.trans hrest) hys
      simpa [List.filterMap_cons, directive?, Item.instruction?, Item.directives, hi, hd]
        using hstands.newlines hns

end Line

/-- The reader makes the content of tokens that consist of lines which build its instructions, and on which
its directives stand. -/
theorem Content.ofTokens_eq_ok_iff_builds {c : Content} : Content.ofTokens ts = .ok c ↔
    ∃ ls, List.Forall₂ Line.Spelled (Token.rows ts) ls ∧
      Line.Builds maxNesting ls c.instructions ∧ ls.filterMap Line.directive? = c.directives := by
  rw [Content.ofTokens_eq_ok_iff]
  constructor
  · rintro ⟨rest, hend, b, hb, rfl⟩
    obtain ⟨xs, ls, hrows, hls⟩ := hb.lays
    rw [Token.rows_of_atEnd hend, List.append_nil] at hrows
    exact ⟨ls, hrows ▸ hls⟩
  · rintro ⟨ls, hls, hbuilds, hdirectives⟩
    obtain ⟨b, rest, hb, hc, hrest⟩ :=
      hbuilds.stands hls (List.append_nil _).symm (by rintro _ ⟨⟩)
    rw [hdirectives] at hc
    obtain ⟨ns, us, rfl, hns, hus⟩ := Token.exists_of_rows_eq_nil hrest
    obtain rfl := hb.ends.eq_nil hns
    exact ⟨us, hus, b, hb, hc⟩

end Pseudocode
