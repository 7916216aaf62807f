import Pseudocode.Proofs.Instruction.Grammar

/-! # The lines of directives

The directives of a derivation stand on lines of their own. Outside of these lines no token begins a
directive.
-/

namespace Pseudocode

/-- A line with a directive on it: its first token, the others, and what they are read as. -/
structure DirectiveLine where
  first : Token
  others : List Token
  directive : Directive

mutual

def Item.directiveLines : Item → List DirectiveLine
  | .assign .. | .display .. | .input .. => []
  | .branch _ _ body | .loop _ _ body => body.directiveLines
  | .branchElse _ _ body otherwise => body.directiveLines ++ otherwise.directiveLines
  | .directive t others d => [⟨t, others, d⟩]

def Nested.directiveLines : Nested → List DirectiveLine
  | .mk _ b _ => b.directiveLines

def Block.directiveLines : Block → List DirectiveLine
  | .blank _ => []
  | .line _ item _ rest => item.directiveLines ++ rest.directiveLines

end

mutual

theorem Item.map_directiveLines : ∀ item : Item,
    item.directiveLines.map DirectiveLine.directive = item.directives
  | .assign .. | .display .. | .input .. => rfl
  | .branch _ _ body | .loop _ _ body => Nested.map_directiveLines body
  | .branchElse _ _ body otherwise => by
    rw [Item.directiveLines, List.map_append, Nested.map_directiveLines, Nested.map_directiveLines,
      Item.directives]
  | .directive .. => rfl

theorem Nested.map_directiveLines : ∀ nested : Nested,
    nested.directiveLines.map DirectiveLine.directive = nested.directives
  | .mk _ b _ => Block.map_directiveLines b

theorem Block.map_directiveLines : ∀ b : Block,
    b.directiveLines.map DirectiveLine.directive = b.directives
  | .blank _ => rfl
  | .line _ item _ rest => by
    rw [Block.directiveLines, List.map_append, Item.map_directiveLines, Block.map_directiveLines,
      Block.directives]

end

/-! ## Where they stand -/

/-- The directive is read off its line, which stands among the tokens. A line break ends it; or the
tokens do, if `last` says that they may. -/
structure DirectiveLine.StandsIn (last : Prop) (l : DirectiveLine) (ts : List Token) : Prop where
  first : l.first.kind = .directive
  reads : ∃ final, Reads (Directive.read final l.first.span.line l.others) l.directive []
  tokens : ∃ us vs, ts = us ++ l.first :: (l.others ++ vs) ∧
    (∀ t ∈ vs.head?, t.kind = .newline) ∧ (vs = [] → last)

section

variable {last : Prop} {l : DirectiveLine} {ts : List Token}

theorem DirectiveLine.StandsIn.after (h : l.StandsIn last ts) (us : List Token) :
    l.StandsIn last (us ++ ts) := by
  obtain ⟨xs, ys, rfl, hys, hlast⟩ := h.tokens
  exact ⟨h.first, h.reads, us ++ xs, ys, by simp, hys, hlast⟩

theorem DirectiveLine.StandsIn.before (h : l.StandsIn False ts) (us : List Token) :
    l.StandsIn last (ts ++ us) := by
  obtain ⟨xs, ys, rfl, hys, hlast⟩ := h.tokens
  cases ys with
  | nil => exact (hlast rfl).elim
  | cons y ys => exact ⟨h.first, h.reads, xs, y :: ys ++ us, by simp, by simpa using hys, nofun⟩

end

mutual

theorem Item.standsIn {last : Prop} : ∀ (item : Item) (lineEnd : Option Token) (rest : List Token),
    item.Grammatical → LineEnded (last ∧ rest = []) lineEnd → ∀ l ∈ item.directiveLines,
      l.StandsIn last (item.tokens ++ (lineEnd.toList ++ rest))
  | .assign .., _, _, _, _ | .display .., _, _, _, _ | .input .., _, _, _, _ => by
    rintro _ ⟨⟩
  | .branch t d body, lineEnd, rest, ⟨_, _, hb⟩, _ => by
    intro l hl
    exact ((Nested.standsIn body hb l hl).after (t :: d.tokens)).before (lineEnd.toList ++ rest)
  | .branchElse t d body otherwise, lineEnd, rest, ⟨_, _, hb, ho⟩, _ => by
    intro l hl
    have hin : l.StandsIn False (body.tokens ++ otherwise.tokens) := by
      rcases List.mem_append.mp hl with hl | hl
      · exact (Nested.standsIn body hb l hl).before otherwise.tokens
      · exact (Nested.standsIn otherwise ho l hl).after body.tokens
    exact (hin.after (t :: d.tokens)).before (lineEnd.toList ++ rest)
  | .loop t d body, lineEnd, rest, ⟨_, _, hb⟩, _ => by
    intro l hl
    exact ((Nested.standsIn body hb l hl).after (t :: d.tokens)).before (lineEnd.toList ++ rest)
  | .directive t others d, lineEnd, rest, ⟨ht, hread⟩, hend => by
    intro l hl
    obtain rfl := List.mem_singleton.mp hl
    refine ⟨ht, hread, [], lineEnd.toList ++ rest, rfl, ?_, ?_⟩
    · cases lineEnd with
      | some u => simpa [LineEnded] using hend
      | none => simp [hend.2]
    · cases lineEnd with
      | some u => exact nofun
      | none => exact fun _ => hend.1

theorem Nested.standsIn {k : Keyword} : ∀ nested : Nested, nested.Grammatical k →
    ∀ l ∈ nested.directiveLines, l.StandsIn False nested.tokens
  | .mk newline b closing, ⟨_, hb, _⟩ => by
    intro l hl
    exact ((Block.standsIn b hb l hl).before [closing]).after [newline]

theorem Block.standsIn {atEnd : Prop} : ∀ b : Block, b.Grammatical atEnd →
    ∀ l ∈ b.directiveLines, l.StandsIn atEnd b.tokens
  | .blank newlines, _ => by
    rintro _ ⟨⟩
  | .line newlines item lineEnd rest, ⟨_, hi, hend, hr⟩ => by
    intro l hl
    rcases List.mem_append.mp hl with hl | hl
    · exact (Item.standsIn item lineEnd rest.tokens hi hend l hl).after newlines
    · have hin := (Block.standsIn rest hr l hl).after (newlines ++ (item.tokens ++ lineEnd.toList))
      simpa [Block.tokens] using hin

end

/-! ## No directive elsewhere -/

theorem Phrase.Grammatical.forall_kind {P : TokenKind → Prop} {d : Phrase} (h : d.Grammatical)
    (hatom : ∀ k e, Expr.ofToken? k = some e → P k)
    (hunary : ∀ k op, UnaryOp.ofToken? k = some op → P k)
    (hbinary : ∀ k op, BinaryOp.ofToken? k = some op → P k)
    (hleft : P (.symbol .leftParen)) (hright : P (.symbol .rightParen)) :
    ∀ t ∈ d.tokens, P t.kind := by
  induction d with
  | atom t e => simpa [tokens] using hatom _ _ h
  | unary t op d ih => simpa [tokens] using ⟨hunary _ _ h.1, ih h.2.2⟩
  | group o d c ih => simpa [tokens, or_imp, forall_and, h.1, h.2.1, hleft, hright] using ih h.2.2
  | binary l t op r ihl ihr =>
    have hl := ihl h.2.2.2.1
    have hr := ihr h.2.2.2.2
    simpa [tokens, or_imp, forall_and] using ⟨hl, hbinary _ _ h.1, hr⟩

def Token.directives (ts : List Token) : List Token :=
  ts.filter (·.kind = .directive)

theorem Token.directives_append (ts us : List Token) :
    directives (ts ++ us) = directives ts ++ directives us :=
  List.filter_append ts us

theorem Token.directives_eq_nil {ts : List Token} (h : ∀ t ∈ ts, t.kind ≠ .directive) :
    directives ts = [] := by
  simpa [directives] using h

theorem Token.directives_cons_of_ne {t : Token} (h : t.kind ≠ .directive) (ts : List Token) :
    directives (t :: ts) = directives ts := by
  simp [directives, h]

theorem Phrase.Grammatical.directives_eq_nil {d : Phrase} (h : d.Grammatical) :
    Token.directives d.tokens = [] := by
  apply Token.directives_eq_nil
  refine h.forall_kind (P := (· ≠ .directive)) ?_ ?_ ?_ nofun nofun
  all_goals
    rintro _ x hx rfl
    cases hx

def DirectiveLine.directives (l : DirectiveLine) : List Token :=
  l.first :: Token.directives l.others

open Token in
mutual

theorem Item.directives_tokens : ∀ item : Item, item.Grammatical →
    directives item.tokens = item.directiveLines.flatMap DirectiveLine.directives
  | .assign t name equal d, ⟨ht, he, hd⟩ => by
    simp [Item.tokens, Item.directiveLines, directives_cons_of_ne, ht, he, hd.directives_eq_nil]
  | .display t d, ⟨ht, hd⟩ => by
    simp [Item.tokens, Item.directiveLines, directives_cons_of_ne, ht, hd.directives_eq_nil]
  | .input t target name, ⟨ht, hn⟩ => by
    simp [Item.tokens, Item.directiveLines, directives, ht, hn]
  | .branch t d body, ⟨ht, hd, hb⟩ => by
    have hbody := Nested.directives_tokens body hb
    simp [Item.tokens, Item.directiveLines, directives_cons_of_ne, directives_append, ht,
      hd.directives_eq_nil, hbody]
  | .branchElse t d body otherwise, ⟨ht, hd, hb, ho⟩ => by
    have hbody := Nested.directives_tokens body hb
    have hotherwise := Nested.directives_tokens otherwise ho
    simp [Item.tokens, Item.directiveLines, directives_cons_of_ne, directives_append, ht,
      hd.directives_eq_nil, hbody, hotherwise]
  | .loop t d body, ⟨ht, hd, hb⟩ => by
    have hbody := Nested.directives_tokens body hb
    simp [Item.tokens, Item.directiveLines, directives_cons_of_ne, directives_append, ht,
      hd.directives_eq_nil, hbody]
  | .directive t others d, ⟨ht, _⟩ => by
    simp [Item.tokens, Item.directiveLines, DirectiveLine.directives, directives, ht]

theorem Nested.directives_tokens {k : Keyword} : ∀ nested : Nested, nested.Grammatical k →
    directives nested.tokens = nested.directiveLines.flatMap DirectiveLine.directives
  | .mk newline b closing, ⟨hn, hb, hc⟩ => by
    have hblock := Block.directives_tokens b hb
    have hclosing : directives [closing] = [] := directives_cons_of_ne (by simp [hc]) []
    simp [Nested.tokens, Nested.directiveLines, directives_cons_of_ne, directives_append, hn,
      hclosing, hblock]

/-- Every token that begins a directive stands on one of the lines. -/
theorem Block.directives_tokens {atEnd : Prop} : ∀ b : Block, b.Grammatical atEnd →
    directives b.tokens = b.directiveLines.flatMap DirectiveLine.directives
  | .blank newlines, hn => directives_eq_nil fun t ht => by simp [hn t ht]
  | .line newlines item lineEnd rest, ⟨hn, hi, hend, hr⟩ => by
    have hnewlines : directives newlines = [] := directives_eq_nil fun t ht => by simp [hn t ht]
    have hlineEnd : directives lineEnd.toList = [] := by
      cases lineEnd with
      | none => rfl
      | some u => exact directives_cons_of_ne (by simp [show u.kind = .newline from hend]) []
    have hitem := Item.directives_tokens item hi
    have hrest := Block.directives_tokens rest hr
    simp [Block.tokens, Block.directiveLines, directives_append, hnewlines, hlineEnd, hitem, hrest]

end

end Pseudocode
