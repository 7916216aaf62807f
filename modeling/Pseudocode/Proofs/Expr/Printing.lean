import Pseudocode.Proofs.Expr.Reading
import Pseudocode.Proofs.Token.Lexemes

/-! # Printed expressions

The text of an expression stands for tokens that are known from the tree, and these tokens are those
of a phrase for the same tree: the parentheses that are left out are not needed.
-/

namespace Pseudocode

def Value.kind : Value → TokenKind
  | .integer n => .integer n
  | .decimal d => .decimal d
  | .boolean true => .keyword .verdadero
  | .boolean false => .keyword .falso
  | .text s => .text s

/-- Whether there is a literal for the value: a number is not negative, a text is on one line. -/
def Value.HasLiteral : Value → Prop
  | .integer n => 0 ≤ n.toInt
  | .decimal d => ∃ q, Decimal.denote d = .finite false q
  | .boolean _ => True
  | .text s => '\n' ∉ s.toList

def BinaryOp.kind : BinaryOp → TokenKind
  | .arith .add => .symbol .plus
  | .arith .subtract => .symbol .minus
  | .arith .multiply => .symbol .star
  | .arith .divide => .symbol .slash
  | .arith .modulo => .keyword .mod
  | .compare .equal => .symbol .equal
  | .compare .notEqual => .symbol .notEqual
  | .compare .less => .symbol .less
  | .compare .lessEqual => .symbol .lessEqual
  | .compare .greater => .symbol .greater
  | .compare .greaterEqual => .symbol .greaterEqual
  | .logic .and => .keyword .and
  | .logic .or => .keyword .or

def UnaryOp.kind : UnaryOp → TokenKind
  | .negate => .symbol .minus
  | .not => .keyword .not

def groupKinds (needed : Bool) (ks : List TokenKind) : List TokenKind :=
  if needed then .symbol .leftParen :: ks ++ [.symbol .rightParen] else ks

namespace Expr

/-- The lexer reads `x` as one identifier. -/
def IsName (x : String) : Prop :=
  ∃ t u, Token.ofSource x = .ok [t, u] ∧ t.kind = .identifier x

/-- Whether the tree has a text: its values have literals, and its variables are identifiers. -/
def Printable : Expr → Prop
  | .literal v => v.HasLiteral
  | .var x => IsName x
  | .unary _ e => e.Printable
  | .binary l _ r => l.Printable ∧ r.Printable

def kinds : Expr → List TokenKind
  | .literal v => [v.kind]
  | .var x => [.identifier x]
  | .unary op e => op.kind :: groupKinds e.isBinary e.kinds
  | .binary l op r =>
    groupKinds (l.needsParens op.precedence false) l.kinds ++
      op.kind :: groupKinds (r.needsParens op.precedence true) r.kinds

def nesting : Expr → Nat
  | .literal _ | .var _ => 0
  | .unary _ e => e.nesting + e.isBinary.toNat + 1
  | .binary l op r =>
    max (l.nesting + (l.needsParens op.precedence false).toNat)
      (r.nesting + (r.needsParens op.precedence true).toNat)

def level : Expr → Nat
  | .binary _ op _ => op.precedence
  | _ => 6

end Expr

/-! ## The text and its tokens -/

open Lexer

theorem Value.writes_literal {v : Value} (h : v.HasLiteral) : Writes v.literal.toList [v.kind] := by
  cases v with
  | integer n => exact writes_integer h
  | decimal d =>
    obtain ⟨q, hq⟩ := h
    exact writes_decimal hq
  | boolean b => cases b <;> exact writes_word (by decide)
  | text s => exact writes_text h

theorem BinaryOp.writes_symbol (op : BinaryOp) : Writes op.symbol.toList [op.kind] := by
  rcases op with (_ | _ | _ | _ | _) | (_ | _ | _ | _ | _ | _) | (_ | _)
  case arith.modulo => exact writes_word (by decide)
  case logic.and => exact writes_word (by decide)
  case logic.or => exact writes_word (by decide)
  all_goals
    refine writes_mark (by decide) fun rest hb => ?_
    rcases hb.cases with rfl | ⟨rest', rfl | rfl | rfl⟩ <;> rfl

namespace Expr

variable {e : Expr}

theorem isName_iff {x : String} : IsName x ↔ Text.isWord x.toList ∧ Keyword.ofWord? x = none := by
  constructor
  · rintro ⟨t, u, hx, ht⟩
    have hplain := (spells_of_ofSource hx).plain t.kind List.mem_cons_self
    rw [ht] at hplain
    exact hplain fun d hd => by cases hd
  · rintro ⟨hword, hnone⟩
    have hspells := (writes_word hword).spells
    rw [String.ofList_toList, wordKind, hnone] at hspells
    obtain ⟨ts, hx, hkinds⟩ := ofSource_eq_ok_iff.2 hspells
    obtain ⟨t, ts, rfl, ht, hts⟩ := List.map_eq_cons_iff.1 hkinds
    obtain ⟨u, ts, rfl, -, hts⟩ := List.map_eq_cons_iff.1 hts
    obtain rfl := List.map_eq_nil_iff.1 hts
    exact ⟨t, u, hx, ht⟩

theorem IsName.writes {x : String} (h : IsName x) : Writes x.toList [.identifier x] := by
  obtain ⟨hword, hnone⟩ := isName_iff.1 h
  have hx := writes_word hword
  rwa [String.ofList_toList, wordKind, hnone] at hx

theorem writes_parenthesize {s : String} {ks : List TokenKind} (h : Writes s.toList ks)
    (needed : Bool) : Writes (parenthesize needed s).toList (groupKinds needed ks) := by
  cases needed with
  | false => exact h
  | true =>
    have hparens := h.parens
    rw [parenthesize, if_pos rfl, String.toList_append, String.toList_append]
    exact hparens

theorem writes_render (h : e.Printable) : Writes e.render.toList e.kinds := by
  induction e with
  | literal v => exact Value.writes_literal h
  | var x => exact IsName.writes h
  | unary op e ih =>
    have he := writes_parenthesize (ih h) e.isBinary
    rw [render, String.toList_append]
    cases op with
    | negate => exact he.minus
    | not => exact (show Writes ['N', 'O'] [.keyword .not] from writes_word (by decide)).blank he
  | binary l op r ihl ihr =>
    have hl := writes_parenthesize (ihl h.1) (l.needsParens op.precedence false)
    have hr := writes_parenthesize (ihr h.2) (r.needsParens op.precedence true)
    have hall := hl.blank (op.writes_symbol.blank hr)
    simp only [render, String.toList_append, List.append_assoc]
    exact hall

end Expr

/-! ## The tokens and their phrase -/

theorem Expr.ofToken?_kind (v : Value) : Expr.ofToken? v.kind = some (.literal v) := by
  cases v with
  | boolean b => cases b <;> rfl
  | _ => rfl

theorem BinaryOp.ofToken?_kind (op : BinaryOp) : BinaryOp.ofToken? op.kind = some op := by
  rcases op with (_ | _ | _ | _ | _) | (_ | _ | _ | _ | _ | _) | (_ | _) <;> rfl

theorem UnaryOp.ofToken?_kind (op : UnaryOp) : UnaryOp.ofToken? op.kind = some op := by
  cases op <;> rfl

theorem BinaryOp.eq_kind_of_ofToken? {k : TokenKind} {op : BinaryOp}
    (h : BinaryOp.ofToken? k = some op) : k = op.kind := by
  unfold BinaryOp.ofToken? at h
  split at h <;> cases h <;> rfl

theorem UnaryOp.eq_kind_of_ofToken? {k : TokenKind} {op : UnaryOp}
    (h : UnaryOp.ofToken? k = some op) : k = op.kind := by
  unfold UnaryOp.ofToken? at h
  split at h <;> cases h <;> rfl

theorem Expr.ofToken?_cases {k : TokenKind} {e : Expr} (h : Expr.ofToken? k = some e) :
    (∃ v, k = Value.kind v ∧ e = .literal v) ∨ ∃ x, k = .identifier x ∧ e = .var x := by
  cases k with
  | integer n => exact .inl ⟨.integer n, rfl, (Option.some.inj h).symm⟩
  | decimal d => exact .inl ⟨.decimal d, rfl, (Option.some.inj h).symm⟩
  | text s => exact .inl ⟨.text s, rfl, (Option.some.inj h).symm⟩
  | identifier x => exact .inr ⟨x, rfl, (Option.some.inj h).symm⟩
  | keyword w =>
    cases w with
    | verdadero => exact .inl ⟨.boolean true, rfl, (Option.some.inj h).symm⟩
    | falso => exact .inl ⟨.boolean false, rfl, (Option.some.inj h).symm⟩
    | _ => cases h
  | _ => cases h

theorem Value.hasLiteral_of_plain {v : Value} (h : Plain v.kind) : v.HasLiteral := by
  cases v with
  | boolean b => trivial
  | _ => exact h

namespace Phrase

variable {n p : Nat} {d : Phrase} {ts : List Token} {e : Expr}

/-- The phrase puts the tokens together to the tree, with the given nesting and level. -/
structure Parses (n p : Nat) (d : Phrase) (ts : List Token) (e : Expr) : Prop where
  tokens : d.tokens = ts
  grammatical : d.Grammatical
  expr : d.expr = e
  nesting : d.nesting = n
  level : d.level = p

theorem exists_parses_group {ks : List TokenKind} (needed : Bool)
    (h : ts.map Token.kind = groupKinds needed ks)
    (hd : ∀ {us : List Token}, us.map Token.kind = ks → ∃ d, Parses n p d us e) :
    ∃ d, Parses (n + needed.toNat) (if needed then 6 else p) d ts e := by
  cases needed with
  | false => exact hd h
  | true =>
    obtain ⟨o, us, rfl, ho, htail⟩ := List.map_eq_cons_iff.1 h
    obtain ⟨us, closing, rfl, hus, hclosing⟩ := List.map_eq_append_iff.1 htail
    obtain ⟨c, rest, rfl, hc, hrest⟩ := List.map_eq_cons_iff.1 hclosing
    obtain rfl := List.map_eq_nil_iff.1 hrest
    obtain ⟨d, rfl, hg, rfl, rfl, -⟩ := hd hus
    exact ⟨.group o d c, rfl, ⟨ho, hc, hg⟩, rfl, rfl, rfl⟩

theorem level_operand (e : Expr) : (if e.isBinary then 6 else e.level) = 6 := by
  cases e <;> rfl

theorem le_level_operand (e : Expr) (op : BinaryOp) (right : Bool) :
    op.precedence + right.toNat ≤ if e.needsParens op.precedence right then 6 else e.level := by
  have hop := op.precedence_le
  have hright := right.toNat_le
  split
  case isTrue => omega
  case isFalse h =>
    cases e with
    | binary l op' r =>
      simp only [Expr.needsParens, Bool.or_eq_true, Bool.and_eq_true, decide_eq_true_eq, beq_iff_eq,
        not_or, not_and] at h
      obtain ⟨hle, hne⟩ := h
      cases right with
      | false => exact Nat.not_lt.1 hle
      | true => exact Nat.lt_of_le_of_ne (Nat.not_lt.1 hle) fun heq => hne rfl heq.symm
    | _ => exact Nat.add_le_add hop hright

theorem exists_parses (e : Expr) {ts : List Token} (h : ts.map Token.kind = e.kinds) :
    ∃ d, Parses e.nesting e.level d ts e := by
  induction e generalizing ts with
  | literal v =>
    obtain ⟨t, ts, rfl, ht, hts⟩ := List.map_eq_cons_iff.1 h
    obtain rfl := List.map_eq_nil_iff.1 hts
    have hv : Expr.ofToken? t.kind = some (.literal v) := by rw [ht, Expr.ofToken?_kind]
    exact ⟨.atom t (.literal v), rfl, hv, rfl, rfl, rfl⟩
  | var x =>
    obtain ⟨t, ts, rfl, ht, hts⟩ := List.map_eq_cons_iff.1 h
    obtain rfl := List.map_eq_nil_iff.1 hts
    exact ⟨.atom t (.var x), rfl, congrArg Expr.ofToken? ht, rfl, rfl, rfl⟩
  | unary op e ih =>
    obtain ⟨t, ts, rfl, ht, hts⟩ := List.map_eq_cons_iff.1 h
    obtain ⟨d, rfl, hg, rfl, hn, hl⟩ := exists_parses_group _ hts ih
    exact ⟨.unary t op d, rfl, ⟨ht ▸ op.ofToken?_kind, hl.trans (level_operand _), hg⟩, rfl,
      congrArg (· + 1) hn, rfl⟩
  | binary l op r ihl ihr =>
    obtain ⟨ls, rs, rfl, hls, hrs⟩ := List.map_eq_append_iff.1 h
    obtain ⟨t, rs, rfl, ht, hrs⟩ := List.map_eq_cons_iff.1 hrs
    obtain ⟨d, rfl, hg, rfl, hn, hl⟩ := exists_parses_group _ hls ihl
    obtain ⟨d', rfl, hg', rfl, hn', hl'⟩ := exists_parses_group _ hrs ihr
    refine ⟨.binary d t op d', rfl, ⟨ht ▸ op.ofToken?_kind, ?_, ?_, hg, hg'⟩, rfl, ?_, rfl⟩
    · exact hl ▸ le_level_operand d.expr op false
    · exact hl' ▸ le_level_operand d'.expr op true
    · rw [nesting, hn, hn']
      rfl

/-! ## Phrases that were read -/

theorem Grammatical.printable (h : d.Grammatical) (ht : ∀ t ∈ d.tokens, Plain t.kind) :
    d.expr.Printable := by
  induction d with
  | atom t e =>
    have hplain := ht t List.mem_cons_self
    obtain ⟨v, hk, rfl⟩ | ⟨x, hk, rfl⟩ := Expr.ofToken?_cases h <;> rw [hk] at hplain
    · exact Value.hasLiteral_of_plain hplain
    · exact Expr.isName_iff.2 hplain
  | unary t op d ih => exact ih h.2.2 fun u hu => ht u (List.mem_cons_of_mem t hu)
  | group o d c ih =>
    exact ih h.2.2 fun u hu => ht u (List.mem_cons_of_mem o (List.mem_append_left [c] hu))
  | binary l t op r ihl ihr =>
    obtain ⟨-, -, -, hl, hr⟩ := h
    exact ⟨ihl hl fun u hu => ht u (List.mem_append_left _ hu),
      ihr hr fun u hu => ht u (List.mem_append_right _ (List.mem_cons_of_mem t hu))⟩

/-- Parentheses are printed only where the phrase has some. -/
theorem of_needsParens {op : BinaryOp} {right : Bool} (hp : op.precedence + right.toNat ≤ d.level)
    (h : d.expr.needsParens op.precedence right) : d.level = 6 ∧ d.expr.isBinary := by
  cases d with
  | binary l t op' r =>
    simp only [expr, Expr.needsParens, Bool.or_eq_true, Bool.and_eq_true, decide_eq_true_eq,
      beq_iff_eq] at h
    simp only [level] at hp
    obtain hlt | ⟨rfl, heq⟩ := h
    · omega
    · simp only [Bool.toNat_true] at hp
      omega
  | _ =>
    refine ⟨rfl, ?_⟩
    unfold Expr.needsParens at h
    split at h
    case h_1 heq => rw [heq]; rfl
    case h_2 => cases h

theorem nesting_add_toNat_le (op : BinaryOp) (right : Bool)
    (hp : op.precedence + right.toNat ≤ d.level) (h : d.expr.nesting ≤ d.nesting)
    (hsix : d.level = 6 → d.expr.nesting + d.expr.isBinary.toNat ≤ d.nesting) :
    d.expr.nesting + (d.expr.needsParens op.precedence right).toNat ≤ d.nesting := by
  cases hneeds : d.expr.needsParens op.precedence right with
  | false => exact h
  | true =>
    obtain ⟨hlevel, hbinary⟩ := of_needsParens hp hneeds
    have hle := hsix hlevel
    rwa [hbinary] at hle

/-- The text of the tree nests no deeper than the phrase. -/
theorem Grammatical.nesting_le (h : d.Grammatical) :
    d.expr.nesting ≤ d.nesting ∧
      (d.level = 6 → d.expr.nesting + d.expr.isBinary.toNat ≤ d.nesting) := by
  induction d with
  | atom t e =>
    obtain ⟨v, -, rfl⟩ | ⟨x, -, rfl⟩ := Expr.ofToken?_cases h <;>
      exact ⟨Nat.le_refl 0, fun _ => Nat.le_refl 0⟩
  | unary t op d ih =>
    have hle := (ih h.2.2).2 h.2.1
    exact ⟨Nat.succ_le_succ hle, fun _ => Nat.succ_le_succ hle⟩
  | group o d c ih =>
    have hle := (ih h.2.2).1
    have hbinary := d.expr.isBinary.toNat_le
    exact ⟨Nat.le_succ_of_le hle, fun _ => Nat.add_le_add hle hbinary⟩
  | binary l t op r ihl ihr =>
    obtain ⟨-, hpl, hpr, hgl, hgr⟩ := h
    obtain ⟨hl, hl6⟩ := ihl hgl
    obtain ⟨hr, hr6⟩ := ihr hgr
    have hleft := nesting_add_toNat_le op false hpl hl hl6
    have hright := nesting_add_toNat_le op true hpr hr hr6
    refine ⟨?_, fun hsix => ?_⟩
    · exact Nat.max_le.2 ⟨hleft.trans (Nat.le_max_left _ _), hright.trans (Nat.le_max_right _ _)⟩
    · have hop := op.precedence_le
      simp only [level] at hsix
      omega

end Phrase

namespace Expr

theorem front_of_map_kind {e : Expr} {ts : List Token} {u : Token} (hn : e.nesting ≤ maxNesting)
    (h : ts.map Token.kind = e.kinds) (hu : u.kind = .endOfInput) :
    ∃ d, Phrase.Front maxNesting 1 d (ts ++ [u]) [u] ∧ d.expr = e := by
  obtain ⟨d, rfl, hg, rfl, hnesting, -⟩ := Phrase.exists_parses e h
  refine ⟨d, ⟨hg, hnesting ▸ hn, d.one_le_level, rfl, ?_⟩, rfl⟩
  rw [stops_cons, hu]
  rintro _ ⟨⟩

theorem ne_endOfInput_of_mem_kinds {e : Expr} (h : e.Printable) :
    ∀ k ∈ e.kinds, k ≠ .endOfInput := by
  obtain ⟨ks, heq, hks⟩ := (writes_render h).spells.exists_append
  rwa [List.append_cancel_right heq]

/-- The text of an expression is read as the same expression, up to its last token. -/
theorem ofTokens_render {e : Expr} (h : e.Printable) (hn : e.nesting ≤ maxNesting) :
    ∃ ts, Token.ofSource e.render = .ok ts ∧
      ofTokens ts = .ok (e, (ts.filter fun t => t.kind ≠ .endOfInput).length) := by
  obtain ⟨ts, hts, hkinds⟩ := ofSource_eq_ok_iff.2 (writes_render h).spells
  obtain ⟨us, vs, rfl, hus, hvs⟩ := List.map_eq_append_iff.1 hkinds
  obtain ⟨u, vs, rfl, hu, hnil⟩ := List.map_eq_cons_iff.1 hvs
  obtain rfl := List.map_eq_nil_iff.1 hnil
  obtain ⟨hlt, hread⟩ : Reads (read (lastSpan (us ++ [u])) (us ++ [u])) e [u] :=
    read_iff_front.2 (front_of_map_kind hn hus hu)
  have hall : us.filter (fun t => t.kind ≠ .endOfInput) = us := by
    rw [List.filter_eq_self]
    intro t ht
    have hne := ne_endOfInput_of_mem_kinds h t.kind (hus ▸ List.mem_map_of_mem ht)
    simpa using hne
  have hcount : ((us ++ [u]).filter fun t => t.kind ≠ .endOfInput).length = us.length := by
    rw [List.filter_append, hall, List.filter_cons_of_neg (by simp [hu]), List.filter_nil,
      List.append_nil]
  refine ⟨us ++ [u], hts, ?_⟩
  rw [ofTokens, hread, hcount]
  change Except.ok (e, (us ++ [u]).length - [u].length) = _
  rw [List.length_append, Nat.add_sub_cancel]

def difference : Expr :=
  .binary (.var "x") (.arith .subtract)
    (.binary (.literal (.integer 2)) (.arith .subtract) (.unary .negate (.literal (.decimal 0.5))))

theorem ofTokens_render_difference :
    difference.Printable ∧ difference.nesting ≤ maxNesting ∧
      ∃ ts, Token.ofSource difference.render = .ok ts ∧
        ofTokens ts = .ok (difference, (ts.filter fun t => t.kind ≠ .endOfInput).length) := by
  have hhalf : Decimal.denote 0.5 = .finite false (2 ^ 52 * 2 ^ (-53 : Int)) := rfl
  have htwo : (0 : Int) ≤ (2 : Int64).toInt := by decide
  have hprintable : difference.Printable := ⟨isName_iff.2 (by decide), htwo, _, hhalf⟩
  have hnesting : difference.nesting ≤ maxNesting := by decide
  exact ⟨hprintable, hnesting, ofTokens_render hprintable hnesting⟩

end Expr
end Pseudocode
