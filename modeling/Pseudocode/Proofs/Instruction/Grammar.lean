import Pseudocode.Instruction.Parser
import Pseudocode.Proofs.Directive.Reading

/-! # The grammar of instructions

A derivation says how the tokens of a block are put together: blank lines, and items that each end
with their line or with the input. An item is an instruction, with derivations of its blocks, or a
directive. No two derivations have the same tokens.
-/

namespace Pseudocode

mutual

inductive Item where
  | assign (t : Token) (name : String) (equal : Token) (value : Phrase)
  | display (t : Token) (value : Phrase)
  | input (t : Token) (target : Token) (name : String)
  | branch (t : Token) (condition : Phrase) (body : Nested)
  | branchElse (t : Token) (condition : Phrase) (body otherwise : Nested)
  | loop (t : Token) (condition : Phrase) (body : Nested)
  | directive (t : Token) (line : List Token) (d : Directive)

/-- A block inside an instruction, from the end of the line above it to the keyword that closes it. -/
inductive Nested where
  | mk (newline : Token) (block : Block) (closing : Token)

/-- Any number of items, each with blank lines before it and with what ends its line, if not the
input; then blank lines. -/
inductive Block where
  | blank (newlines : List Token)
  | line (newlines : List Token) (item : Item) (lineEnd : Option Token) (rest : Block)

end

/-! ## What a derivation derives -/

mutual

def Item.tokens : Item → List Token
  | .assign t _ equal d => t :: equal :: d.tokens
  | .display t d => t :: d.tokens
  | .input t target _ => [t, target]
  | .branch t d body => t :: (d.tokens ++ body.tokens)
  | .branchElse t d body otherwise => t :: (d.tokens ++ (body.tokens ++ otherwise.tokens))
  | .loop t d body => t :: (d.tokens ++ body.tokens)
  | .directive t line _ => t :: line

def Nested.tokens : Nested → List Token
  | .mk newline b closing => newline :: (b.tokens ++ [closing])

def Block.tokens : Block → List Token
  | .blank newlines => newlines
  | .line newlines item lineEnd rest =>
    newlines ++ (item.tokens ++ (lineEnd.toList ++ rest.tokens))

end

mutual

/-- The instruction of an item; its line is that of its first token. -/
def Item.instruction? : Item → Option Instruction
  | .assign t name _ d => some (.assign name d.expr t.span.line)
  | .display t d => some (.display d.expr t.span.line)
  | .input t _ name => some (.input name t.span.line)
  | .branch t d body => some (.branch d.expr body.instructions none t.span.line)
  | .branchElse t d body otherwise =>
    some (.branch d.expr body.instructions (some otherwise.instructions) t.span.line)
  | .loop t d body => some (.loop d.expr body.instructions t.span.line)
  | .directive .. => none

def Nested.instructions : Nested → List Instruction
  | .mk _ b _ => b.instructions

def Block.instructions : Block → List Instruction
  | .blank _ => []
  | .line _ item _ rest => item.instruction?.toList ++ rest.instructions

end

mutual

def Item.directives : Item → List Directive
  | .assign .. | .display .. | .input .. => []
  | .branch _ _ body | .loop _ _ body => body.directives
  | .branchElse _ _ body otherwise => body.directives ++ otherwise.directives
  | .directive _ _ d => [d]

def Nested.directives : Nested → List Directive
  | .mk _ b _ => b.directives

def Block.directives : Block → List Directive
  | .blank _ => []
  | .line _ item _ rest => item.directives ++ rest.directives

end

def Block.content (b : Block) : Content :=
  ⟨b.instructions, b.directives⟩

/-! ## What a derivation has to satisfy -/

/-- A line ends with a line break; or with the input, if `last` says that it may. -/
def LineEnded (last : Prop) : Option Token → Prop
  | some t => t.kind = .newline
  | none => last

mutual

def Item.Grammatical : Item → Prop
  | .assign t name equal d =>
    t.kind = .identifier name ∧ equal.kind = .symbol .equal ∧ d.Grammatical
  | .display t d => t.kind = .keyword .mostrar ∧ d.Grammatical
  | .input t target name => t.kind = .keyword .leer ∧ target.kind = .identifier name
  | .branch t d body => t.kind = .keyword .si ∧ d.Grammatical ∧ body.Grammatical .finSi
  | .branchElse t d body otherwise => t.kind = .keyword .si ∧ d.Grammatical ∧
      body.Grammatical .sino ∧ otherwise.Grammatical .finSi
  | .loop t d body => t.kind = .keyword .mientras ∧ d.Grammatical ∧ body.Grammatical .finMientras
  | .directive t line d =>
    t.kind = .directive ∧ ∃ final, Reads (Directive.read final t.span.line line) d []

def Nested.Grammatical (k : Keyword) : Nested → Prop
  | .mk newline b closing =>
    newline.kind = .newline ∧ b.Grammatical False ∧ closing.kind = .keyword k

/-- The last line may end with the input, if that ends where the block does, as `atEnd` says. -/
def Block.Grammatical (atEnd : Prop) : Block → Prop
  | .blank newlines => ∀ t ∈ newlines, t.kind = .newline
  | .line newlines item lineEnd rest => (∀ t ∈ newlines, t.kind = .newline) ∧ item.Grammatical ∧
      LineEnded (atEnd ∧ rest.tokens = []) lineEnd ∧ rest.Grammatical atEnd

end

mutual

def Item.depth : Item → Nat
  | .assign .. | .display .. | .input .. | .directive .. => 0
  | .branch _ _ body | .loop _ _ body => body.depth
  | .branchElse _ _ body otherwise => max body.depth otherwise.depth

def Nested.depth : Nested → Nat
  | .mk _ b _ => b.depth + 1

def Block.depth : Block → Nat
  | .blank _ => 0
  | .line _ item _ rest => max item.depth rest.depth

end

mutual

def Item.nesting : Item → Nat
  | .assign _ _ _ d | .display _ d => d.nesting
  | .input .. | .directive .. => 0
  | .branch _ d body | .loop _ d body => max d.nesting body.nesting
  | .branchElse _ d body otherwise => max d.nesting (max body.nesting otherwise.nesting)

def Nested.nesting : Nested → Nat
  | .mk _ b _ => b.nesting

def Block.nesting : Block → Nat
  | .blank _ => 0
  | .line _ item _ rest => max item.nesting rest.nesting

end

/-- The block is a derivation of the given tokens, which is all of the input, within the limits on
nesting. -/
structure Block.Derives (b : Block) (ts : List Token) : Prop where
  grammatical : b.Grammatical True
  tokens : b.tokens = ts
  depth : b.depth ≤ maxNesting
  nesting : b.nesting ≤ maxNesting

/-! ## Derivations in front of other tokens -/

variable {n : Nat} {t : Token} {ts us rest rest' : List Token} {k k' : Keyword}

def EndsSection (ts : List Token) : Prop :=
  ∀ t ∈ ts.head?, Section.isEnd t

def AtEnd (ts : List Token) : Prop :=
  ∀ t ∈ ts.head?, t.kind = .endOfInput

/-- The block stands in front of what ends a section; less than `n` blocks are open in it at once. -/
structure Block.Front (n : Nat) (b : Block) (ts rest : List Token) : Prop where
  grammatical : b.Grammatical (AtEnd rest)
  depth : b.depth < n
  nesting : b.nesting ≤ maxNesting
  tokens : b.tokens ++ rest = ts
  ends : EndsSection rest

/-- The block stands in front, closed by the given keyword; at most `n` blocks are open at once. -/
def Nested.Front (n : Nat) (k : Keyword) : Nested → List Token → List Token → Prop
  | .mk newline b closing, ts, rest => newline.kind = .newline ∧ closing.kind = .keyword k ∧
      ∃ us, ts = newline :: us ∧ b.Front n us (closing :: rest)

/-- The item stands in front, its expression and its blocks one after the other. -/
inductive Item.Front (n : Nat) : Item → List Token → List Token → Prop where
  | assign {t equal : Token} {name : String} {d : Phrase} {ts rest : List Token} :
    t.kind = .identifier name → equal.kind = .symbol .equal → d.Front maxNesting 1 ts rest →
      Front n (.assign t name equal d) (t :: equal :: ts) rest
  | display {t : Token} {d : Phrase} {ts rest : List Token} :
    t.kind = .keyword .mostrar → d.Front maxNesting 1 ts rest → Front n (.display t d) (t :: ts) rest
  | input {t target : Token} {name : String} {rest : List Token} :
    t.kind = .keyword .leer → target.kind = .identifier name →
      Front n (.input t target name) (t :: target :: rest) rest
  | branch {t : Token} {d : Phrase} {body : Nested} {ts us rest : List Token} :
    t.kind = .keyword .si → d.Front maxNesting 1 ts us → body.Front n .finSi us rest →
      Front n (.branch t d body) (t :: ts) rest
  | branchElse {t : Token} {d : Phrase} {body otherwise : Nested} {ts us vs rest : List Token} :
    t.kind = .keyword .si → d.Front maxNesting 1 ts us → body.Front n .sino us vs →
      otherwise.Front n .finSi vs rest → Front n (.branchElse t d body otherwise) (t :: ts) rest
  | loop {t : Token} {d : Phrase} {body : Nested} {ts us rest : List Token} :
    t.kind = .keyword .mientras → d.Front maxNesting 1 ts us → body.Front n .finMientras us rest →
      Front n (.loop t d body) (t :: ts) rest
  | directive {t : Token} {line ts rest : List Token} {d : Directive} :
    t.kind = .directive → (∃ final, Reads (Directive.read final t.span.line line) d []) →
      line ++ rest = ts → Front n (.directive t line d) (t :: ts) rest

inductive EndsWith : List Token → Option Token → List Token → Prop where
  | newline {t : Token} {ts : List Token} : t.kind = .newline → EndsWith (t :: ts) (some t) ts
  | atEnd {ts : List Token} : AtEnd ts → EndsWith ts none ts

theorem EndsWith.endsLine {lineEnd : Option Token} (h : EndsWith ts lineEnd us) :
    Directive.EndsLine ts := by
  cases h with
  | newline ht =>
    rintro _ ⟨⟩
    simp [Directive.onLine, ht]
  | atEnd h =>
    intro t ht
    simp [Directive.onLine, h t ht]

theorem EndsWith.length_le {lineEnd : Option Token} (h : EndsWith ts lineEnd us) :
    us.length ≤ ts.length := by
  cases h with
  | newline => exact Nat.le_succ _
  | atEnd => exact Nat.le_refl _

theorem Stops.of_endsLine {p : Nat} (h : Directive.EndsLine ts) : Stops p ts :=
  Directive.stops_of_sameLine (Directive.endsLine_nil.sameLine h) stops_nil

theorem isEnd_of_closes {kind : BlockKind} (hk : kind.closes k) (ht : t.kind = .keyword k) :
    Section.isEnd t := by
  revert hk
  cases kind <;> cases k <;> simp [BlockKind.closes, Section.isEnd, ht]

theorem not_atEnd_cons (ht : t.kind = .keyword k) : AtEnd (t :: ts) ↔ False := by
  simp [AtEnd, ht]

theorem Nested.front_iff (kind : BlockKind) (hk : kind.closes k) {d : Nested} :
    d.Front n k ts rest ↔
      d.Grammatical k ∧ d.depth ≤ n ∧ d.nesting ≤ maxNesting ∧ d.tokens ++ rest = ts := by
  obtain ⟨newline, b, closing⟩ := d
  have htokens : (Nested.mk newline b closing).tokens ++ rest =
      newline :: (b.tokens ++ closing :: rest) := by simp [Nested.tokens]
  rw [htokens]
  constructor
  · rintro ⟨hn, hc, us, rfl, h⟩
    have hg := h.grammatical
    rw [not_atEnd_cons hc] at hg
    exact ⟨⟨hn, hg, hc⟩, h.depth, h.nesting, by rw [h.tokens]⟩
  · rintro ⟨⟨hn, hg, hc⟩, hd, hnest, rfl⟩
    refine ⟨hn, hc, _, rfl, ?_, hd, hnest, rfl, ?_⟩
    · rwa [not_atEnd_cons hc]
    · rintro _ ⟨⟩
      exact isEnd_of_closes hk hc

theorem Nested.Front.stops {d : Nested} {p : Nat} (h : d.Front n k ts rest) : Stops p ts := by
  obtain ⟨newline, b, closing⟩ := d
  obtain ⟨hn, -, us, rfl, -⟩ := h
  simp [stops_cons, hn, BinaryOp.ofToken?]

theorem Phrase.front_of {p : Phrase} (hg : p.Grammatical) (hn : p.nesting ≤ maxNesting)
    (hs : Stops 1 rest) : p.Front maxNesting 1 (p.tokens ++ rest) rest :=
  ⟨hg, hn, p.one_le_level, rfl, hs⟩

theorem Item.front_iff {item : Item} (hrest : Directive.EndsLine rest) : item.Front n ts rest ↔
    item.Grammatical ∧ item.depth ≤ n ∧ item.nesting ≤ maxNesting ∧ item.tokens ++ rest = ts := by
  constructor
  · intro h
    cases h with
    | assign ht he hd =>
      exact ⟨⟨ht, he, hd.grammatical⟩, Nat.zero_le n, hd.nesting, by simp [Item.tokens, hd.tokens]⟩
    | display ht hd =>
      exact ⟨⟨ht, hd.grammatical⟩, Nat.zero_le n, hd.nesting, by simp [Item.tokens, hd.tokens]⟩
    | input ht hu => exact ⟨⟨ht, hu⟩, Nat.zero_le n, Nat.zero_le _, rfl⟩
    | branch ht hd hb =>
      obtain ⟨hg, hdepth, hnest, htok⟩ := (Nested.front_iff .si rfl).mp hb
      exact ⟨⟨ht, hd.grammatical, hg⟩, hdepth, Nat.max_le.mpr ⟨hd.nesting, hnest⟩,
        by simp [Item.tokens, hd.tokens, htok]⟩
    | branchElse ht hd hb ho =>
      obtain ⟨hg, hdepth, hnest, htok⟩ := (Nested.front_iff .si rfl).mp hb
      obtain ⟨hg', hdepth', hnest', htok'⟩ := (Nested.front_iff .sino rfl).mp ho
      exact ⟨⟨ht, hd.grammatical, hg, hg'⟩, Nat.max_le.mpr ⟨hdepth, hdepth'⟩,
        Nat.max_le.mpr ⟨hd.nesting, Nat.max_le.mpr ⟨hnest, hnest'⟩⟩,
        by simp [Item.tokens, hd.tokens, htok, htok']⟩
    | loop ht hd hb =>
      obtain ⟨hg, hdepth, hnest, htok⟩ := (Nested.front_iff .mientras rfl).mp hb
      exact ⟨⟨ht, hd.grammatical, hg⟩, hdepth, Nat.max_le.mpr ⟨hd.nesting, hnest⟩,
        by simp [Item.tokens, hd.tokens, htok]⟩
    | directive ht hd hts =>
      exact ⟨⟨ht, hd⟩, Nat.zero_le n, Nat.zero_le _, congrArg (_ :: ·) hts⟩
  · rintro ⟨hg, hdepth, hnest, rfl⟩
    have hstops : Stops 1 rest := .of_endsLine hrest
    cases item with
    | assign t name equal d => exact .assign hg.1 hg.2.1 (Phrase.front_of hg.2.2 hnest hstops)
    | display t d => exact .display hg.1 (Phrase.front_of hg.2 hnest hstops)
    | input t target name => exact .input hg.1 hg.2
    | branch t d body =>
      obtain ⟨ht, hg, hbg⟩ := hg
      obtain ⟨hn, hbn⟩ := Nat.max_le.mp hnest
      have hb : body.Front n .finSi (body.tokens ++ rest) rest :=
        (Nested.front_iff .si rfl).mpr ⟨hbg, hdepth, hbn, rfl⟩
      rw [Item.tokens, List.cons_append, List.append_assoc]
      exact .branch ht (Phrase.front_of hg hn hb.stops) hb
    | branchElse t d body otherwise =>
      obtain ⟨ht, hg, hbg, hog⟩ := hg
      obtain ⟨hn, hbon⟩ := Nat.max_le.mp hnest
      obtain ⟨hbn, hon⟩ := Nat.max_le.mp hbon
      obtain ⟨hbd, hod⟩ := Nat.max_le.mp hdepth
      have ho : otherwise.Front n .finSi (otherwise.tokens ++ rest) rest :=
        (Nested.front_iff .sino rfl).mpr ⟨hog, hod, hon, rfl⟩
      have hb : body.Front n .sino (body.tokens ++ (otherwise.tokens ++ rest)) _ :=
        (Nested.front_iff .si rfl).mpr ⟨hbg, hbd, hbn, rfl⟩
      rw [Item.tokens, List.cons_append, List.append_assoc, List.append_assoc]
      exact .branchElse ht (Phrase.front_of hg hn hb.stops) hb ho
    | loop t d body =>
      obtain ⟨ht, hg, hbg⟩ := hg
      obtain ⟨hn, hbn⟩ := Nat.max_le.mp hnest
      have hb : body.Front n .finMientras (body.tokens ++ rest) rest :=
        (Nested.front_iff .mientras rfl).mpr ⟨hbg, hdepth, hbn, rfl⟩
      rw [Item.tokens, List.cons_append, List.append_assoc]
      exact .loop ht (Phrase.front_of hg hn hb.stops) hb
    | directive t line d => exact .directive hg.1 hg.2 rfl

/-! ## One line at a time -/

theorem Item.Grammatical.head {item : Item} (h : item.Grammatical) :
    ∃ t ts, item.tokens = t :: ts ∧ ¬ Section.isEnd t ∧ t.kind ≠ .newline := by
  have hstart : ∀ {t : Token} {ts : List Token}, item.tokens = t :: ts →
      (∃ name, t.kind = .identifier name) ∨ t.kind = .keyword .mostrar ∨ t.kind = .keyword .leer ∨
        t.kind = .keyword .si ∨ t.kind = .keyword .mientras ∨ t.kind = .directive →
      ∃ t ts, item.tokens = t :: ts ∧ ¬ Section.isEnd t ∧ t.kind ≠ .newline := by
    intro t ts htokens hkind
    refine ⟨t, ts, htokens, ?_⟩
    rcases hkind with ⟨name, hk⟩ | hk | hk | hk | hk | hk <;> simp [Section.isEnd, hk]
  cases item with
  | assign t name equal d => exact hstart rfl (.inl ⟨name, h.1⟩)
  | display t d => exact hstart rfl (by simp [h.1])
  | input t target name => exact hstart rfl (by simp [h.1])
  | branch t d body => exact hstart rfl (by simp [h.1])
  | branchElse t d body otherwise => exact hstart rfl (by simp [h.1])
  | loop t d body => exact hstart rfl (by simp [h.1])
  | directive t line d => exact hstart rfl (by simp [h.1])

theorem Item.Front.head {item : Item} (h : item.Front n ts rest) (hrest : Directive.EndsLine rest) :
    (∃ t us, ts = t :: us ∧ ¬ Section.isEnd t ∧ t.kind ≠ .newline) ∧ rest.length < ts.length := by
  obtain ⟨hg, -, -, rfl⟩ := (Item.front_iff hrest).mp h
  obtain ⟨t, us, hitem, hend, hnewline⟩ := hg.head
  rw [hitem]
  refine ⟨⟨t, us ++ rest, rfl, hend, hnewline⟩, ?_⟩
  simp only [List.length_append, List.length_cons]
  omega

theorem AtEnd.endsSection (h : AtEnd ts) : EndsSection ts := by
  intro t ht
  simp [Section.isEnd, h t ht]

theorem atEnd_singleton (ht : t.kind = .endOfInput) : AtEnd [t] := by
  rintro _ ⟨⟩
  exact ht

def Block.addBlank (t : Token) : Block → Block
  | .blank newlines => .blank (t :: newlines)
  | .line newlines item lineEnd rest => .line (t :: newlines) item lineEnd rest

namespace Block

variable {b : Block}

theorem Grammatical.head {atEnd : Prop} (h : b.Grammatical atEnd) : b = .blank [] ∨
    (∃ t b', t.kind = .newline ∧ b = addBlank t b') ∨
    ∃ item lineEnd b', b = .line [] item lineEnd b' := by
  cases b with
  | blank newlines =>
    cases newlines with
    | nil => exact .inl rfl
    | cons t newlines => exact .inr (.inl ⟨t, .blank newlines, h t (by simp), rfl⟩)
  | line newlines item lineEnd rest =>
    cases newlines with
    | nil => exact .inr (.inr ⟨item, lineEnd, rest, rfl⟩)
    | cons t newlines =>
      exact .inr (.inl ⟨t, .line newlines item lineEnd rest, h.1 t (by simp), rfl⟩)

theorem grammatical_addBlank {atEnd : Prop} :
    (b.addBlank t).Grammatical atEnd ↔ t.kind = .newline ∧ b.Grammatical atEnd := by
  cases b <;> simp [addBlank, Grammatical, and_assoc]

@[simp] theorem tokens_addBlank : (b.addBlank t).tokens = t :: b.tokens := by
  cases b <;> rfl

@[simp] theorem depth_addBlank : (b.addBlank t).depth = b.depth := by
  cases b <;> rfl

@[simp] theorem nesting_addBlank : (b.addBlank t).nesting = b.nesting := by
  cases b <;> rfl

@[simp] theorem content_addBlank : (b.addBlank t).content = b.content := by
  cases b <;> rfl

theorem front_of_ends (hts : EndsSection ts) :
    b.Front (n + 1) ts rest ↔ b = .blank [] ∧ rest = ts := by
  constructor
  · rintro ⟨hg, -, -, rfl, -⟩
    rcases hg.head with rfl | ⟨t, b', ht, rfl⟩ | ⟨item, lineEnd, b', rfl⟩
    · exact ⟨rfl, rfl⟩
    · have := hts t (by simp)
      simp [Section.isEnd, ht] at this
    · obtain ⟨t, us, hitem, hend, -⟩ := hg.2.1.head
      exact absurd (hts t (by simp [tokens, hitem])) hend
  · rintro ⟨rfl, rfl⟩
    exact ⟨by simp [Grammatical], Nat.succ_pos n, Nat.zero_le _, rfl, hts⟩

theorem front_newline (ht : t.kind = .newline) :
    b.Front n (t :: ts) rest ↔ ∃ b', b = addBlank t b' ∧ b'.Front n ts rest := by
  constructor
  · rintro ⟨hg, hd, hn, htok, hend⟩
    rcases hg.head with rfl | ⟨t', b', ht', rfl⟩ | ⟨item, lineEnd, b', rfl⟩
    · obtain rfl : rest = t :: ts := htok
      have := hend t rfl
      simp [Section.isEnd, ht] at this
    · rw [tokens_addBlank] at htok
      obtain ⟨rfl, htail⟩ := List.cons.inj htok
      exact ⟨b', rfl, (grammatical_addBlank.mp hg).2, by simpa using hd, by simpa using hn, htail,
        hend⟩
    · obtain ⟨u, us, hitem, -, hnewline⟩ := hg.2.1.head
      rw [tokens, hitem] at htok
      obtain ⟨rfl, -⟩ := List.cons.inj htok
      exact absurd ht hnewline
  · rintro ⟨b', rfl, hg, hd, hn, rfl, hend⟩
    exact ⟨grammatical_addBlank.mpr ⟨ht, hg⟩, by simpa using hd, by simpa using hn, by simp, hend⟩

theorem front_line (ht : t.kind ≠ .newline) (hend : ¬ Section.isEnd t) :
    b.Front (n + 1) (t :: ts) rest ↔ ∃ item us lineEnd vs b', b = .line [] item lineEnd b' ∧
      item.Front n (t :: ts) us ∧ EndsWith us lineEnd vs ∧ b'.Front (n + 1) vs rest := by
  constructor
  · rintro ⟨hg, hd, hn, htok, hends⟩
    rcases hg.head with rfl | ⟨t', b', ht', rfl⟩ | ⟨item, lineEnd, b', rfl⟩
    · obtain rfl : rest = t :: ts := htok
      exact absurd (hends t rfl) hend
    · rw [tokens_addBlank] at htok
      obtain ⟨rfl, -⟩ := List.cons.inj htok
      exact absurd ht' ht
    · obtain ⟨-, hitem, hline, hb'⟩ := hg
      obtain ⟨hdi, hdb⟩ := Nat.max_lt.mp hd
      obtain ⟨hni, hnb⟩ := Nat.max_le.mp hn
      have hends' : EndsWith (lineEnd.toList ++ (b'.tokens ++ rest)) lineEnd (b'.tokens ++ rest) := by
        cases lineEnd with
        | some u => exact .newline hline
        | none =>
          rw [hline.2]
          exact .atEnd hline.1
      refine ⟨item, _, lineEnd, _, b', rfl, ?_, hends', hb', hdb, hnb, rfl, hends⟩
      refine (Item.front_iff hends'.endsLine).mpr ⟨hitem, Nat.le_of_lt_succ hdi, hni, ?_⟩
      rw [← htok]
      simp [tokens]
  · rintro ⟨item, us, lineEnd, vs, b', rfl, hitem, hline, hb'⟩
    obtain ⟨hg, hd, hn, htok⟩ := (Item.front_iff hline.endsLine).mp hitem
    have hlast : LineEnded (AtEnd rest ∧ b'.tokens = []) lineEnd := by
      cases hline with
      | newline hu => exact hu
      | atEnd hvs =>
        obtain ⟨rfl, rfl⟩ := (front_of_ends hvs.endsSection).mp hb'
        exact ⟨hvs, rfl⟩
    have hus : us = lineEnd.toList ++ vs := by
      cases hline with
      | newline => rfl
      | atEnd => rfl
    refine ⟨⟨by simp, hg, hlast, hb'.grammatical⟩, ?_, ?_, ?_, hb'.ends⟩
    · exact Nat.max_lt.mpr ⟨Nat.lt_succ_of_le hd, hb'.depth⟩
    · exact Nat.max_le.mpr ⟨hn, hb'.nesting⟩
    · rw [← htok, hus, ← hb'.tokens]
      simp [tokens]

end Block

/-! ## One derivation at most -/

theorem EndsWith.unique {us' : List Token} {e e' : Option Token} (h : EndsWith ts e us)
    (h' : EndsWith ts e' us') : e = e' ∧ us = us' := by
  cases h with
  | newline ht =>
    cases h' with
    | newline => exact ⟨rfl, rfl⟩
    | atEnd h' =>
      have := h' _ rfl
      simp [ht] at this
  | atEnd h =>
    cases h' with
    | newline ht =>
      have := h _ rfl
      simp [ht] at this
    | atEnd => exact ⟨rfl, rfl⟩

section Unique

variable (hu : ∀ {ts us us' : List Token} {b b' : Block}, b.Front n ts us → b'.Front n ts us' →
  b = b' ∧ us = us')

include hu

theorem Nested.Front.unique {d d' : Nested} (h : d.Front n k ts rest) (h' : d'.Front n k' ts rest') :
    d = d' ∧ k = k' ∧ rest = rest' := by
  obtain ⟨newline, b, closing⟩ := d
  obtain ⟨newline', b', closing'⟩ := d'
  obtain ⟨-, hc, us, rfl, hb⟩ := h
  obtain ⟨-, hc', us', hus, hb'⟩ := h'
  obtain ⟨rfl, rfl⟩ := List.cons.inj hus
  obtain ⟨rfl, hrest⟩ := hu hb hb'
  obtain ⟨rfl, rfl⟩ := List.cons.inj hrest
  exact ⟨rfl, TokenKind.keyword.inj (hc.symm.trans hc'), rfl⟩

theorem Item.Front.unique {item item' : Item} (hrest : Directive.EndsLine rest)
    (hrest' : Directive.EndsLine rest') (h : item.Front n ts rest) (h' : item'.Front n ts rest') :
    item = item' ∧ rest = rest' := by
  cases h with
  | assign ht he hd =>
    cases h' with
    | assign ht' he' hd' =>
      obtain ⟨rfl, rfl⟩ := hd.unique (by decide) hd'
      obtain rfl := TokenKind.identifier.inj (ht.symm.trans ht')
      exact ⟨rfl, rfl⟩
    | _ => simp_all
  | display ht hd =>
    cases h' with
    | display ht' hd' =>
      obtain ⟨rfl, rfl⟩ := hd.unique (by decide) hd'
      exact ⟨rfl, rfl⟩
    | _ => simp_all
  | input ht hu =>
    cases h' with
    | input ht' hu' =>
      obtain rfl := TokenKind.identifier.inj (hu.symm.trans hu')
      exact ⟨rfl, rfl⟩
    | _ => simp_all
  | branch ht hd hb =>
    cases h' with
    | branch ht' hd' hb' =>
      obtain ⟨rfl, rfl⟩ := hd.unique (by decide) hd'
      obtain ⟨rfl, -, rfl⟩ := hb.unique hu hb'
      exact ⟨rfl, rfl⟩
    | branchElse ht' hd' hb' ho' =>
      obtain ⟨rfl, rfl⟩ := hd.unique (by decide) hd'
      obtain ⟨-, hk, -⟩ := hb.unique hu hb'
      cases hk
    | _ => simp_all
  | branchElse ht hd hb ho =>
    cases h' with
    | branchElse ht' hd' hb' ho' =>
      obtain ⟨rfl, rfl⟩ := hd.unique (by decide) hd'
      obtain ⟨rfl, -, rfl⟩ := hb.unique hu hb'
      obtain ⟨rfl, -, rfl⟩ := ho.unique hu ho'
      exact ⟨rfl, rfl⟩
    | branch ht' hd' hb' =>
      obtain ⟨rfl, rfl⟩ := hd.unique (by decide) hd'
      obtain ⟨-, hk, -⟩ := hb.unique hu hb'
      cases hk
    | _ => simp_all
  | loop ht hd hb =>
    cases h' with
    | loop ht' hd' hb' =>
      obtain ⟨rfl, rfl⟩ := hd.unique (by decide) hd'
      obtain ⟨rfl, -, rfl⟩ := hb.unique hu hb'
      exact ⟨rfl, rfl⟩
    | _ => simp_all
  | @directive t line ts rest d ht hd hts =>
    cases h' with
    | @directive _ line' _ rest' d' ht' hd' hts' =>
      obtain ⟨final, hd⟩ := hd
      obtain ⟨final', hd'⟩ := hd'
      have hline := hrest.takeWhile_append (Directive.onLine_of_read hd)
      have hline' := hrest'.takeWhile_append (Directive.onLine_of_read hd')
      obtain rfl : line = line' := by rw [← hline, ← hline', hts, hts']
      exact ⟨by rw [Directive.read_unique hd hd'], List.append_cancel_left (hts.trans hts'.symm)⟩
    | _ => simp_all

end Unique

/-- A list of tokens has one derivation of a block in front at most. -/
theorem Block.Front.unique {b b' : Block} (h : b.Front n ts rest) (h' : b'.Front n ts rest') :
    b = b' ∧ rest = rest' := by
  induction n generalizing ts rest rest' b b' with
  | zero => exact absurd h.depth (Nat.not_lt_zero _)
  | succ n ihn =>
    -- the lines of the block, from the first one on
    induction hlen : ts.length using Nat.strongRecOn generalizing ts b b' with
    | ind len ih =>
      by_cases hts : EndsSection ts
      · obtain ⟨rfl, rfl⟩ := (front_of_ends hts).mp h
        obtain ⟨rfl, rfl⟩ := (front_of_ends hts).mp h'
        exact ⟨rfl, rfl⟩
      cases ts with
      | nil => exact absurd (by rintro _ ⟨⟩) hts
      | cons t ts =>
        by_cases ht : t.kind = .newline
        · obtain ⟨c, rfl, hc⟩ := (front_newline ht).mp h
          obtain ⟨c', rfl, hc'⟩ := (front_newline ht).mp h'
          obtain ⟨rfl, rfl⟩ := ih ts.length (by rw [← hlen]; exact Nat.lt_succ_self _) hc hc' rfl
          exact ⟨rfl, rfl⟩
        · have hend : ¬ Section.isEnd t := fun he => hts (by rintro _ ⟨⟩; exact he)
          obtain ⟨item, us, e, vs, c, rfl, hitem, hline, hc⟩ := (front_line ht hend).mp h
          obtain ⟨item', us', e', vs', c', rfl, hitem', hline', hc'⟩ := (front_line ht hend).mp h'
          obtain ⟨rfl, rfl⟩ := hitem.unique ihn hline.endsLine hline'.endsLine hitem'
          obtain ⟨rfl, rfl⟩ := hline.unique hline'
          have hlt : vs.length < len :=
            hlen ▸ Nat.lt_of_le_of_lt hline.length_le (hitem.head hline.endsLine).2
          obtain ⟨rfl, rfl⟩ := ih vs.length hlt hc hc' rfl
          exact ⟨rfl, rfl⟩

end Pseudocode
