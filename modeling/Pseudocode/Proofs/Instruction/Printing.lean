import Pseudocode.Instruction.Printer
import Pseudocode.Proofs.Expr.Printing
import Pseudocode.Proofs.Instruction.Grammar

/-! # Printed instructions

The text of an instruction stands for tokens that do not depend on how far it is indented, and these
tokens have a derivation of the same instruction, apart from lines.
-/

namespace Pseudocode

open Lexer

/-- Whether an expression has a text that can be read: it does not nest too deep. -/
def Expr.Readable (e : Expr) : Prop :=
  e.Printable ∧ e.nesting ≤ maxNesting

/-- Whether an instruction has a text that can be read where `n` more blocks may be opened. -/
inductive Instruction.Printable : Nat → Instruction → Prop where
  | assign {n : Nat} {x : String} {e : Expr} (line : Nat) :
    Expr.IsName x → e.Readable → Printable n (.assign x e line)
  | display {n : Nat} {e : Expr} (line : Nat) : e.Readable → Printable n (.display e line)
  | input {n : Nat} {x : String} (line : Nat) : Expr.IsName x → Printable n (.input x line)
  | branch {n : Nat} {e : Expr} {body : List Instruction} (line : Nat) :
    e.Readable → (∀ i ∈ body, Printable n i) → Printable (n + 1) (.branch e body none line)
  | branchElse {n : Nat} {e : Expr} {body otherwise : List Instruction} (line : Nat) :
    e.Readable → (∀ i ∈ body, Printable n i) → (∀ i ∈ otherwise, Printable n i) →
      Printable (n + 1) (.branch e body (some otherwise) line)
  | loop {n : Nat} {e : Expr} {body : List Instruction} (line : Nat) :
    e.Readable → (∀ i ∈ body, Printable n i) → Printable (n + 1) (.loop e body line)

/-! ## Instructions that were read -/

variable {n : Nat} {t : Token} {ts : List Token}

theorem Phrase.Grammatical.readable {d : Phrase} (h : d.Grammatical) (hn : d.nesting ≤ maxNesting)
    (ht : ∀ t ∈ d.tokens, Plain t.kind) : d.expr.Readable :=
  ⟨h.printable ht, h.nesting_le.1.trans hn⟩

theorem isName_of_plain {name : String} (ht : t.kind = .identifier name) (hp : Plain t.kind) :
    Expr.IsName name := by
  rw [ht] at hp
  exact Expr.isName_iff.2 hp

theorem Nested.exists_eq_succ {d : Nested} (h : d.depth ≤ n) : ∃ m, n = m + 1 := by
  obtain ⟨newline, b, closing⟩ := d
  exact Nat.exists_eq_add_of_le' ((Nat.le_add_left 1 b.depth).trans h)

mutual

theorem Item.printable : ∀ (item : Item) (n : Nat), item.Grammatical → item.depth ≤ n →
    item.nesting ≤ maxNesting → (∀ t ∈ item.tokens, Plain t.kind) →
    ∀ i ∈ item.instruction?, i.Printable n
  | .assign t name equal d, n, ⟨ht, he, hd⟩, _, hn, hp => by
    rintro _ ⟨⟩
    simp only [Item.tokens, List.forall_mem_cons] at hp
    exact .assign _ (isName_of_plain ht hp.1) (hd.readable hn hp.2.2)
  | .display t d, n, ⟨ht, hd⟩, _, hn, hp => by
    rintro _ ⟨⟩
    simp only [Item.tokens, List.forall_mem_cons] at hp
    exact .display _ (hd.readable hn hp.2)
  | .input t target name, n, ⟨ht, hk⟩, _, _, hp => by
    rintro _ ⟨⟩
    simp only [Item.tokens, List.forall_mem_cons] at hp
    exact .input _ (isName_of_plain hk hp.2.1)
  | .branch t d body, n, ⟨ht, hd, hb⟩, hdepth, hn, hp => by
    rintro _ ⟨⟩
    obtain ⟨m, rfl⟩ := Nested.exists_eq_succ hdepth
    obtain ⟨hnd, hnb⟩ := Nat.max_le.1 hn
    simp only [Item.tokens, List.forall_mem_cons, List.forall_mem_append] at hp
    exact .branch _ (hd.readable hnd hp.2.1) (Nested.printable body _ hb hdepth hnb hp.2.2)
  | .branchElse t d body otherwise, n, ⟨ht, hd, hb, ho⟩, hdepth, hn, hp => by
    rintro _ ⟨⟩
    obtain ⟨hdb, hdo⟩ := Nat.max_le.1 hdepth
    obtain ⟨m, rfl⟩ := Nested.exists_eq_succ hdb
    obtain ⟨hnd, hnbo⟩ := Nat.max_le.1 hn
    obtain ⟨hnb, hno⟩ := Nat.max_le.1 hnbo
    simp only [Item.tokens, List.forall_mem_cons, List.forall_mem_append] at hp
    exact .branchElse _ (hd.readable hnd hp.2.1) (Nested.printable body _ hb hdb hnb hp.2.2.1)
      (Nested.printable otherwise _ ho hdo hno hp.2.2.2)
  | .loop t d body, n, ⟨ht, hd, hb⟩, hdepth, hn, hp => by
    rintro _ ⟨⟩
    obtain ⟨m, rfl⟩ := Nested.exists_eq_succ hdepth
    obtain ⟨hnd, hnb⟩ := Nat.max_le.1 hn
    simp only [Item.tokens, List.forall_mem_cons, List.forall_mem_append] at hp
    exact .loop _ (hd.readable hnd hp.2.1) (Nested.printable body _ hb hdepth hnb hp.2.2)
  | .directive t line d, n, _, _, _, _ => by
    rintro _ ⟨⟩

theorem Nested.printable {k : Keyword} : ∀ (d : Nested) (n : Nat), d.Grammatical k →
    d.depth ≤ n + 1 → d.nesting ≤ maxNesting → (∀ t ∈ d.tokens, Plain t.kind) →
    ∀ i ∈ d.instructions, i.Printable n
  | .mk newline b closing, n, ⟨_, hb, _⟩, hdepth, hn, hp =>
    Block.printable b n hb (Nat.le_of_succ_le_succ hdepth) hn fun t ht =>
      hp t (List.mem_cons_of_mem newline (List.mem_append_left [closing] ht))

theorem Block.printable {atEnd : Prop} : ∀ (b : Block) (n : Nat), b.Grammatical atEnd →
    b.depth ≤ n → b.nesting ≤ maxNesting → (∀ t ∈ b.tokens, Plain t.kind) →
    ∀ i ∈ b.instructions, i.Printable n
  | .blank newlines, n, _, _, _, _ => by
    rintro _ ⟨⟩
  | .line newlines item lineEnd rest, n, ⟨_, hi, _, hr⟩, hdepth, hn, hp => by
    obtain ⟨hdi, hdr⟩ := Nat.max_le.1 hdepth
    obtain ⟨hni, hnr⟩ := Nat.max_le.1 hn
    simp only [Block.tokens, List.mem_append, or_imp, forall_and] at hp
    obtain ⟨-, hpi, -, hpr⟩ := hp
    intro i hmem
    rcases List.mem_append.1 hmem with hmem | hmem
    · exact Item.printable item n hi hdi hni hpi i (Option.mem_toList.1 hmem)
    · exact Block.printable rest n hr hdr hnr hpr i hmem

end

mutual

theorem Item.directives_eq_nil : ∀ item : Item, item.Grammatical →
    (∀ t ∈ item.tokens, t.kind ≠ .directive) → item.directives = []
  | .assign .., _, _ | .display .., _, _ | .input .., _, _ => rfl
  | .branch t d body, ⟨_, _, hb⟩, h => by
    simp only [Item.tokens, List.forall_mem_cons, List.forall_mem_append] at h
    exact Nested.directives_eq_nil body hb h.2.2
  | .branchElse t d body otherwise, ⟨_, _, hb, ho⟩, h => by
    simp only [Item.tokens, List.forall_mem_cons, List.forall_mem_append] at h
    rw [Item.directives, Nested.directives_eq_nil body hb h.2.2.1,
      Nested.directives_eq_nil otherwise ho h.2.2.2, List.append_nil]
  | .loop t d body, ⟨_, _, hb⟩, h => by
    simp only [Item.tokens, List.forall_mem_cons, List.forall_mem_append] at h
    exact Nested.directives_eq_nil body hb h.2.2
  | .directive t line d, ⟨ht, _⟩, h => absurd ht (h t List.mem_cons_self)

theorem Nested.directives_eq_nil {k : Keyword} : ∀ d : Nested, d.Grammatical k →
    (∀ t ∈ d.tokens, t.kind ≠ .directive) → d.directives = []
  | .mk newline b closing, ⟨_, hb, _⟩, h =>
    Block.directives_eq_nil b hb fun t ht =>
      h t (List.mem_cons_of_mem newline (List.mem_append_left [closing] ht))

theorem Block.directives_eq_nil {atEnd : Prop} : ∀ b : Block, b.Grammatical atEnd →
    (∀ t ∈ b.tokens, t.kind ≠ .directive) → b.directives = []
  | .blank newlines, _, _ => rfl
  | .line newlines item lineEnd rest, ⟨_, hi, _, hr⟩, h => by
    simp only [Block.tokens, List.forall_mem_append] at h
    rw [Block.directives, Item.directives_eq_nil item hi h.2.1,
      Block.directives_eq_nil rest hr h.2.2.2, List.append_nil]

end

/-! ## Reading printed instructions again -/

variable {i j : Instruction} {is js : List Instruction} {ks ks' : List TokenKind} {rest : List Char}

theorem Expr.same_self {e : Expr} (h : e.Printable) : e.same e := by
  induction e with
  | literal v =>
    cases v with
    | decimal d =>
      obtain ⟨q, hq⟩ := h
      exact Decimal.beq_self_of_denote hq
    | _ => exact decide_eq_true rfl
  | var x => exact decide_eq_true rfl
  | unary op e ih => simp [same, ih h]
  | binary l op r ihl ihr => simp [same, ihl h.1, ihr h.2]

/-- An instruction like `i`, with a text again, but maybe on another line. -/
structure Instruction.Alike (n : Nat) (i j : Instruction) : Prop where
  same : i.sameShape j
  render : ∀ depth, j.renderAt depth = i.renderAt depth
  printable : j.Printable n

structure Instruction.AlikeAll (n : Nat) (is js : List Instruction) : Prop where
  same : sameSequence is js
  render : ∀ depth, renderSequence depth js = renderSequence depth is
  printable : ∀ j ∈ js, j.Printable n

/-- An item for an instruction without directives in it, within the limits. -/
structure Item.Makes (n : Nat) (item : Item) (j : Instruction) : Prop where
  grammatical : item.Grammatical
  depth : item.depth ≤ n
  nesting : item.nesting ≤ maxNesting
  directives : item.directives = []
  instruction : item.instruction? = some j

structure Block.Makes (n : Nat) (b : Block) (js : List Instruction) : Prop where
  grammatical : ∀ atEnd, b.Grammatical atEnd
  depth : b.depth ≤ n
  nesting : b.nesting ≤ maxNesting
  directives : b.directives = []
  instructions : b.instructions = js

/-- The text of the instruction stands for tokens of the given kinds, and such tokens are those of
an item for an instruction like it. -/
structure Instruction.Prints (n : Nat) (i : Instruction) (ks : List TokenKind) : Prop where
  spells : ∀ depth rest ks', Spells rest ks' →
    Spells ((i.renderAt depth).toList ++ rest) (ks ++ ks')
  reread : ∀ ts : List Token, ts.map Token.kind = ks → ∃ (item : Item) (newline : Token)
    (j : Instruction), ts = item.tokens ++ [newline] ∧ newline.kind = .newline ∧ item.Makes n j ∧
      i.Alike n j

structure Instruction.PrintsAll (n : Nat) (is : List Instruction) (ks : List TokenKind) : Prop where
  spells : ∀ depth rest ks', Spells rest ks' →
    Spells ((renderSequence depth is).toList ++ rest) (ks ++ ks')
  reread : ∀ ts : List Token, ts.map Token.kind = ks → ∃ (b : Block) (js : List Instruction),
    b.tokens = ts ∧ b.Makes n js ∧ AlikeAll n is js

namespace Instruction

theorem spells_sourceLine {s : String} (h : Writes s.toList ks) (depth : Nat)
    (hs : Spells rest ks') :
    Spells ((sourceLine depth s).toList ++ rest) (ks ++ .newline :: ks') := by
  have hline := h.line hs (2 * depth)
  rw [sourceLine, String.toList_append, String.toList_append, String.toList_ofList,
    List.append_assoc, List.append_assoc]
  exact hline

theorem printsAll_nil : PrintsAll n [] [] where
  spells _ _ _ hs := hs
  reread ts hts := by
    obtain rfl := List.map_eq_nil_iff.1 hts
    exact ⟨.blank [], [], rfl, ⟨fun _ => by simp [Block.Grammatical], Nat.zero_le n, Nat.zero_le _,
      rfl, rfl⟩, rfl, fun _ => rfl, by simp⟩

theorem Prints.cons (h : i.Prints n ks) (hs : PrintsAll n is ks') :
    PrintsAll n (i :: is) (ks ++ ks') where
  spells depth rest ks'' hrest := by
    rw [renderSequence, String.toList_append, List.append_assoc, List.append_assoc]
    exact h.spells depth _ _ (hs.spells depth _ _ hrest)
  reread ts hts := by
    obtain ⟨us, vs, rfl, hus, hvs⟩ := List.map_eq_append_iff.1 hts
    obtain ⟨item, newline, j, rfl, hnewline, hitem, halike⟩ := h.reread us hus
    obtain ⟨b, js, rfl, hb, hall⟩ := hs.reread vs hvs
    refine ⟨.line [] item (some newline) b, j :: js, ?_, ⟨fun atEnd => ?_, ?_, ?_, ?_, ?_⟩,
      ?_, ?_, ?_⟩
    · simp [Block.tokens]
    · exact ⟨by simp, hitem.grammatical, hnewline, hb.grammatical atEnd⟩
    · exact Nat.max_le.2 ⟨hitem.depth, hb.depth⟩
    · exact Nat.max_le.2 ⟨hitem.nesting, hb.nesting⟩
    · rw [Block.directives, hitem.directives, hb.directives, List.append_nil]
    · rw [Block.instructions, hitem.instruction, hb.instructions, Option.toList_some,
        List.singleton_append]
    · rw [sameSequence, halike.same, hall.same, Bool.true_and]
    · intro depth
      rw [renderSequence, renderSequence, halike.render, hall.render]
    · exact List.forall_mem_cons.2 ⟨halike.printable, hall.printable⟩

theorem exists_printsAll (h : ∀ i ∈ is, ∃ ks, i.Prints n ks) : ∃ ks, PrintsAll n is ks := by
  induction is with
  | nil => exact ⟨[], printsAll_nil⟩
  | cons i is ih =>
    obtain ⟨hi, his⟩ := List.forall_mem_cons.1 h
    obtain ⟨ks, hks⟩ := hi
    obtain ⟨ks', hks'⟩ := ih his
    exact ⟨ks ++ ks', hks.cons hks'⟩

/-! ## The parts of an instruction -/

variable {e : Expr} {k : Keyword} {x : String}

theorem exists_phrase_after (h : e.Readable)
    (hts : ts.map Token.kind = .keyword k :: (e.kinds ++ ks)) :
    ∃ (t : Token) (d : Phrase) (us : List Token), ts = t :: (d.tokens ++ us) ∧
      us.map Token.kind = ks ∧ t.kind = .keyword k ∧ d.Grammatical ∧ d.expr = e ∧
        d.nesting ≤ maxNesting := by
  obtain ⟨t, ts, rfl, ht, htail⟩ := List.map_eq_cons_iff.1 hts
  obtain ⟨ds, us, rfl, hds, hus⟩ := List.map_eq_append_iff.1 htail
  obtain ⟨d, rfl, hg, rfl, hn, -⟩ := Phrase.exists_parses e hds
  exact ⟨t, d, us, rfl, hus, ht, hg, rfl, hn ▸ h.2⟩

theorem PrintsAll.exists_nested (h : PrintsAll n is ks)
    (hts : ts.map Token.kind = .newline :: (ks ++ .keyword k :: ks')) :
    ∃ (d : Nested) (us : List Token), ts = d.tokens ++ us ∧ us.map Token.kind = ks' ∧
      d.Grammatical k ∧ d.depth ≤ n + 1 ∧ d.nesting ≤ maxNesting ∧ d.directives = [] ∧
        AlikeAll n is d.instructions := by
  obtain ⟨newline, ts, rfl, hnewline, htail⟩ := List.map_eq_cons_iff.1 hts
  obtain ⟨bs, us, rfl, hbs, hus⟩ := List.map_eq_append_iff.1 htail
  obtain ⟨closing, us, rfl, hclosing, hrest⟩ := List.map_eq_cons_iff.1 hus
  obtain ⟨b, js, rfl, hb, hall⟩ := h.reread bs hbs
  refine ⟨.mk newline b closing, us, ?_, hrest, ⟨hnewline, hb.grammatical False, hclosing⟩,
    Nat.succ_le_succ hb.depth, hb.nesting, hb.directives, ?_⟩
  · simp [Nested.tokens]
  · rwa [Nested.instructions, hb.instructions]

theorem exists_newline (hts : ts.map Token.kind = [.newline]) :
    ∃ t : Token, ts = [t] ∧ t.kind = .newline := by
  obtain ⟨t, ts, rfl, ht, htail⟩ := List.map_eq_cons_iff.1 hts
  obtain rfl := List.map_eq_nil_iff.1 htail
  exact ⟨t, rfl, ht⟩

/-! ## One instruction -/

variable {depth l : Nat} {body otherwise : List Instruction}

@[simp] theorem renderAt_assign :
    (assign x e l).renderAt depth = sourceLine depth (x ++ " = " ++ e.render) :=
  rfl

@[simp] theorem renderAt_display :
    (display e l).renderAt depth = sourceLine depth ("MOSTRAR " ++ e.render) :=
  rfl

@[simp] theorem renderAt_input : (input x l).renderAt depth = sourceLine depth ("LEER " ++ x) :=
  rfl

@[simp] theorem renderAt_branch : (branch e body none l).renderAt depth =
    sourceLine depth ("SI " ++ e.render) ++ renderSequence (depth + 1) body ++
      sourceLine depth "FINSI" := by
  simp [branch, renderAt, renderBlock]

@[simp] theorem renderAt_branchElse : (branch e body (some otherwise) l).renderAt depth =
    sourceLine depth ("SI " ++ e.render) ++ renderSequence (depth + 1) body ++
      sourceLine depth "SINO" ++ renderSequence (depth + 1) otherwise ++
        sourceLine depth "FINSI" := by
  simp [branch, renderAt, renderBlock]

@[simp] theorem renderAt_loop : (loop e body l).renderAt depth =
    sourceLine depth ("MIENTRAS " ++ e.render) ++ renderSequence (depth + 1) body ++
      sourceLine depth "FINMIENTRAS" := by
  simp [loop, renderAt, renderBlock]

theorem writes_keyword (k : Keyword) (word : List Char)
    (h : Text.isWord word ∧ Keyword.ofWord? (.ofList word) = some k) :
    Writes word [.keyword k] := by
  have hword := writes_word h.1
  rwa [wordKind, h.2] at hword

theorem writes_after_keyword (k : Keyword) (word : List Char) {head s : String}
    (hword : Text.isWord word ∧ Keyword.ofWord? (.ofList word) = some k)
    (hhead : head.toList = word ++ [' ']) (h : Writes s.toList ks) :
    Writes (head ++ s).toList (.keyword k :: ks) := by
  have hall := (writes_keyword k word hword).blank h
  rwa [String.toList_append, hhead, List.append_assoc]

theorem prints_assign (hx : Expr.IsName x) (h : e.Readable) :
    (assign x e l).Prints n (.identifier x :: .symbol .equal :: (e.kinds ++ [.newline])) where
  spells depth rest ks' hs := by
    have hequal : Writes ['='] [.symbol .equal] := BinaryOp.writes_symbol (.compare .equal)
    have htext : Writes (x ++ " = " ++ e.render).toList
        (.identifier x :: .symbol .equal :: e.kinds) := by
      rw [String.toList_append, String.toList_append, List.append_assoc]
      exact hx.writes.blank (hequal.blank (Expr.writes_render h.1))
    have hline := spells_sourceLine htext depth hs
    simpa using hline
  reread ts hts := by
    obtain ⟨t, ts, rfl, ht, htail⟩ := List.map_eq_cons_iff.1 hts
    obtain ⟨equal, ts, rfl, hequal, htail'⟩ := List.map_eq_cons_iff.1 htail
    obtain ⟨ds, us, rfl, hds, hus⟩ := List.map_eq_append_iff.1 htail'
    obtain ⟨d, rfl, hg, rfl, hn, -⟩ := Phrase.exists_parses e hds
    obtain ⟨newline, rfl, hnewline⟩ := exists_newline hus
    exact ⟨.assign t x equal d, newline, assign x d.expr t.span.line, rfl, hnewline,
      ⟨⟨ht, hequal, hg⟩, Nat.zero_le n, hn.trans_le h.2, rfl, rfl⟩,
      by simp [assign, sameShape, sameExpr, sameBlock, Expr.same_self h.1], fun _ => rfl,
      .assign _ hx h⟩

theorem prints_display (h : e.Readable) :
    (display e l).Prints n (.keyword .mostrar :: (e.kinds ++ [.newline])) where
  spells depth rest ks' hs := by
    have htext : Writes ("MOSTRAR " ++ e.render).toList (.keyword .mostrar :: e.kinds) :=
      writes_after_keyword .mostrar "MOSTRAR".toList (by decide) rfl (Expr.writes_render h.1)
    have hline := spells_sourceLine htext depth hs
    simpa using hline
  reread ts hts := by
    obtain ⟨t, d, us, rfl, hus, ht, hg, rfl, hn⟩ := exists_phrase_after h hts
    obtain ⟨newline, rfl, hnewline⟩ := exists_newline hus
    exact ⟨.display t d, newline, display d.expr t.span.line, rfl, hnewline,
      ⟨⟨ht, hg⟩, Nat.zero_le n, hn, rfl, rfl⟩,
      by simp [display, sameShape, sameExpr, sameBlock, Expr.same_self h.1], fun _ => rfl,
      .display _ h⟩

theorem prints_input (hx : Expr.IsName x) :
    (input x l).Prints n [.keyword .leer, .identifier x, .newline] where
  spells depth rest ks' hs := by
    have htext : Writes ("LEER " ++ x).toList [.keyword .leer, .identifier x] :=
      writes_after_keyword .leer "LEER".toList (by decide) rfl hx.writes
    have hline := spells_sourceLine htext depth hs
    simpa using hline
  reread ts hts := by
    obtain ⟨t, ts, rfl, ht, htail⟩ := List.map_eq_cons_iff.1 hts
    obtain ⟨target, ts, rfl, htarget, hus⟩ := List.map_eq_cons_iff.1 htail
    obtain ⟨newline, rfl, hnewline⟩ := exists_newline hus
    exact ⟨.input t target x, newline, input x t.span.line, rfl, hnewline,
      ⟨⟨ht, htarget⟩, Nat.zero_le n, Nat.zero_le _, rfl, rfl⟩,
      by simp [input, sameShape, sameExpr, sameBlock], fun _ => rfl, .input _ hx⟩

theorem prints_branch (h : e.Readable) (hb : PrintsAll n body ks) :
    (branch e body none l).Prints (n + 1)
      (.keyword .si :: (e.kinds ++ .newline :: (ks ++ .keyword .finSi :: [.newline]))) where
  spells depth rest ks' hs := by
    have hhead : Writes ("SI " ++ e.render).toList (.keyword .si :: e.kinds) :=
      writes_after_keyword .si "SI".toList (by decide) rfl (Expr.writes_render h.1)
    have hend := spells_sourceLine (writes_keyword .finSi "FINSI".toList (by decide)) depth hs
    have hbody := spells_sourceLine hhead depth (hb.spells (depth + 1) _ _ hend)
    simpa using hbody
  reread ts hts := by
    obtain ⟨t, d, us, rfl, hus, ht, hg, rfl, hn⟩ := exists_phrase_after h hts
    obtain ⟨b, vs, rfl, hvs, hbg, hbd, hbn, hbs, hall⟩ := hb.exists_nested hus
    obtain ⟨newline, rfl, hnewline⟩ := exists_newline hvs
    refine ⟨.branch t d b, newline, branch d.expr b.instructions none t.span.line, ?_, hnewline,
      ⟨⟨ht, hg, hbg⟩, hbd, Nat.max_le.2 ⟨hn, hbn⟩, hbs, rfl⟩, ?_, fun depth => ?_,
      .branch _ h hall.printable⟩
    · simp [Item.tokens]
    · simp [branch, sameShape, sameExpr, sameBlock, Expr.same_self h.1, hall.same]
    · rw [renderAt_branch, renderAt_branch, hall.render]

theorem prints_branchElse (h : e.Readable) (hb : PrintsAll n body ks)
    (ho : PrintsAll n otherwise ks') :
    (branch e body (some otherwise) l).Prints (n + 1)
      (.keyword .si :: (e.kinds ++ .newline :: (ks ++ .keyword .sino ::
        .newline :: (ks' ++ .keyword .finSi :: [.newline])))) where
  spells depth rest ks'' hs := by
    have hhead : Writes ("SI " ++ e.render).toList (.keyword .si :: e.kinds) :=
      writes_after_keyword .si "SI".toList (by decide) rfl (Expr.writes_render h.1)
    have hend := spells_sourceLine (writes_keyword .finSi "FINSI".toList (by decide)) depth hs
    have helse := spells_sourceLine (writes_keyword .sino "SINO".toList (by decide)) depth
      (ho.spells (depth + 1) _ _ hend)
    have hbody := spells_sourceLine hhead depth (hb.spells (depth + 1) _ _ helse)
    simpa using hbody
  reread ts hts := by
    obtain ⟨t, d, us, rfl, hus, ht, hg, rfl, hn⟩ := exists_phrase_after h hts
    obtain ⟨b, vs, rfl, hvs, hbg, hbd, hbn, hbs, hall⟩ := hb.exists_nested hus
    obtain ⟨c, ws, rfl, hws, hcg, hcd, hcn, hcs, hall'⟩ := ho.exists_nested hvs
    obtain ⟨newline, rfl, hnewline⟩ := exists_newline hws
    refine ⟨.branchElse t d b c, newline,
      branch d.expr b.instructions (some c.instructions) t.span.line, ?_, hnewline,
      ⟨⟨ht, hg, hbg, hcg⟩, Nat.max_le.2 ⟨hbd, hcd⟩, Nat.max_le.2 ⟨hn, Nat.max_le.2 ⟨hbn, hcn⟩⟩, ?_,
        rfl⟩, ?_, fun depth => ?_, .branchElse _ h hall.printable hall'.printable⟩
    · simp [Item.tokens]
    · rw [Item.directives, hbs, hcs, List.append_nil]
    · simp [branch, sameShape, sameExpr, sameBlock, Expr.same_self h.1, hall.same, hall'.same]
    · rw [renderAt_branchElse, renderAt_branchElse, hall.render, hall'.render]

theorem prints_loop (h : e.Readable) (hb : PrintsAll n body ks) :
    (loop e body l).Prints (n + 1) (.keyword .mientras ::
      (e.kinds ++ .newline :: (ks ++ .keyword .finMientras :: [.newline]))) where
  spells depth rest ks' hs := by
    have hhead : Writes ("MIENTRAS " ++ e.render).toList (.keyword .mientras :: e.kinds) :=
      writes_after_keyword .mientras "MIENTRAS".toList (by decide) rfl (Expr.writes_render h.1)
    have hend := spells_sourceLine (writes_keyword .finMientras "FINMIENTRAS".toList (by decide))
      depth hs
    have hbody := spells_sourceLine hhead depth (hb.spells (depth + 1) _ _ hend)
    simpa using hbody
  reread ts hts := by
    obtain ⟨t, d, us, rfl, hus, ht, hg, rfl, hn⟩ := exists_phrase_after h hts
    obtain ⟨b, vs, rfl, hvs, hbg, hbd, hbn, hbs, hall⟩ := hb.exists_nested hus
    obtain ⟨newline, rfl, hnewline⟩ := exists_newline hvs
    refine ⟨.loop t d b, newline, loop d.expr b.instructions t.span.line, ?_, hnewline,
      ⟨⟨ht, hg, hbg⟩, hbd, Nat.max_le.2 ⟨hn, hbn⟩, hbs, rfl⟩, ?_, fun depth => ?_,
      .loop _ h hall.printable⟩
    · simp [Item.tokens]
    · simp [loop, sameShape, sameExpr, sameBlock, Expr.same_self h.1, hall.same]
    · rw [renderAt_loop, renderAt_loop, hall.render]

/-- An instruction with a text that can be read is read from it again. -/
theorem Printable.exists_prints (h : i.Printable n) : ∃ ks, i.Prints n ks := by
  induction h with
  | assign line hx he => exact ⟨_, prints_assign hx he⟩
  | display line he => exact ⟨_, prints_display he⟩
  | input line hx => exact ⟨_, prints_input hx⟩
  | branch line he _ ih =>
    obtain ⟨ks, hks⟩ := exists_printsAll ih
    exact ⟨_, prints_branch he hks⟩
  | branchElse line he _ _ ih ih' =>
    obtain ⟨ks, hks⟩ := exists_printsAll ih
    obtain ⟨ks', hks'⟩ := exists_printsAll ih'
    exact ⟨_, prints_branchElse he hks hks'⟩
  | loop line he _ ih =>
    obtain ⟨ks, hks⟩ := exists_printsAll ih
    exact ⟨_, prints_loop he hks⟩

end Instruction
end Pseudocode
