import Pseudocode.Proofs.Expr.Reading

/-! # Derivations of expressions

The grammar of expressions, level by level. On the levels 1 to 5 stand operands of the next level with
the operators of the level between them, and group to the left; on level 6 stand unary operators with
their operands, parentheses and single tokens. The grammar derives what phrases spell, and so an
expression is read just where a derivation of it ends before a token that is no binary operator.
-/

namespace Pseudocode

namespace Expr

def operators : Nat → List (TokenKind × BinaryOp)
  | 1 => [(.keyword .or, .logic .or)]
  | 2 => [(.keyword .and, .logic .and)]
  | 3 => [(.symbol .equal, .compare .equal), (.symbol .notEqual, .compare .notEqual),
      (.symbol .less, .compare .less), (.symbol .lessEqual, .compare .lessEqual),
      (.symbol .greater, .compare .greater), (.symbol .greaterEqual, .compare .greaterEqual)]
  | 4 => [(.symbol .plus, .arith .add), (.symbol .minus, .arith .subtract)]
  | 5 => [(.symbol .star, .arith .multiply), (.symbol .slash, .arith .divide),
      (.keyword .mod, .arith .modulo)]
  | _ => []

inductive Primary : TokenKind → Expr → Prop where
  | integer (n : Int64) : Primary (.integer n) (.literal (.integer n))
  | decimal (d : Float) : Primary (.decimal d) (.literal (.decimal d))
  | text (s : String) : Primary (.text s) (.literal (.text s))
  | verdadero : Primary (.keyword .verdadero) (.literal (.boolean true))
  | falso : Primary (.keyword .falso) (.literal (.boolean false))
  | var (x : String) : Primary (.identifier x) (.var x)

/-- The tokens derive the expression on level `p`, with at most `n` parentheses and unary operators open
at once. -/
inductive Derives : (n p : Nat) → List Token → Expr → Prop where
  /-- An operand of the next level stands on this one as well. -/
  | operand {n p : Nat} {ts : List Token} {e : Expr} :
    Derives n (p + 1) ts e → Derives n p ts e
  | binary {n p : Nat} {ts us : List Token} {t : Token} {l r : Expr} {op : BinaryOp} :
    Derives n p ts l → (t.kind, op) ∈ operators p → Derives n (p + 1) us r →
      Derives n p (ts ++ t :: us) (.binary l op r)
  | not {n : Nat} {t : Token} {ts : List Token} {e : Expr} :
    t.kind = .keyword .not → Derives n 6 ts e → Derives (n + 1) 6 (t :: ts) (.unary .not e)
  | negate {n : Nat} {t : Token} {ts : List Token} {e : Expr} :
    t.kind = .symbol .minus → Derives n 6 ts e → Derives (n + 1) 6 (t :: ts) (.unary .negate e)
  | group {n : Nat} {o c : Token} {ts : List Token} {e : Expr} :
    o.kind = .symbol .leftParen → Derives n 1 ts e → c.kind = .symbol .rightParen →
      Derives (n + 1) 6 (o :: (ts ++ [c])) e
  | primary {n : Nat} {t : Token} {e : Expr} : Primary t.kind e → Derives n 6 [t] e

/-- The first `k` tokens derive the expression, and no binary operator follows them. -/
structure Begins (ts : List Token) (e : Expr) (k : Nat) : Prop where
  length : k ≤ ts.length
  derives : Derives maxNesting 1 (ts.take k) e
  ends : ∀ t, ts[k]? = some t → ∀ p op, (t.kind, op) ∉ operators p

variable {n p q k : Nat} {ts rest : List Token} {e : Expr} {d : Phrase} {kind : TokenKind}

/-! ## Tokens -/

theorem ofToken?_of_mem_operators (p : Nat) :
    ∀ q ∈ operators p, BinaryOp.ofToken? q.1 = some q.2 ∧ q.2.precedence = p := by
  unfold operators
  split
  case h_6 => simp
  all_goals decide

theorem mem_operators_iff {op : BinaryOp} :
    (kind, op) ∈ operators p ↔ BinaryOp.ofToken? kind = some op ∧ op.precedence = p := by
  constructor
  · exact ofToken?_of_mem_operators p (kind, op)
  · rintro ⟨hop, rfl⟩
    unfold BinaryOp.ofToken? at hop
    split at hop <;> cases hop <;> simp [operators, BinaryOp.precedence]

theorem primary_iff : Primary kind e ↔ ofToken? kind = some e := by
  constructor
  · rintro ⟨⟩ <;> rfl
  · intro h
    unfold ofToken? at h
    split at h <;> cases h <;> constructor

/-! ## Phrases and derivations -/

theorem Derives.mono (h : Derives n q ts e) (hpq : p ≤ q) : Derives n p ts e := by
  induction hpq with
  | refl => exact h
  | step _ ih => exact ih (.operand h)

theorem Derives.unary {t : Token} {op : UnaryOp} (hop : UnaryOp.ofToken? t.kind = some op)
    (h : Derives n 6 ts e) : Derives (n + 1) 6 (t :: ts) (.unary op e) := by
  unfold UnaryOp.ofToken? at hop
  split at hop <;> cases hop
  case h_1 ht => exact .not ht h
  case h_2 ht => exact .negate ht h

theorem derives_of_phrase (hg : d.Grammatical) (hn : d.nesting ≤ n) (hp : p ≤ d.level) :
    Derives n p d.tokens d.expr := by
  induction d generalizing n p with
  | atom t e => exact .mono (.primary (primary_iff.mpr hg)) hp
  | unary t op d ih =>
    obtain ⟨hop, hl, hd⟩ := hg
    obtain ⟨m, rfl⟩ := Nat.exists_eq_add_of_le' (Nat.le_trans (Nat.le_add_left 1 _) hn)
    exact .mono (.unary hop (ih hd (Nat.le_of_succ_le_succ hn) (Nat.le_of_eq hl.symm))) hp
  | group o d c ih =>
    obtain ⟨ho, hc, hd⟩ := hg
    obtain ⟨m, rfl⟩ := Nat.exists_eq_add_of_le' (Nat.le_trans (Nat.le_add_left 1 _) hn)
    exact .mono (.group ho (ih hd (Nat.le_of_succ_le_succ hn) d.one_le_level) hc) hp
  | binary l t op r ihl ihr =>
    obtain ⟨hop, hl, hr, hgl, hgr⟩ := hg
    obtain ⟨hnl, hnr⟩ := Nat.max_le.mp hn
    exact .mono (.binary (ihl hgl hnl hl) (mem_operators_iff.mpr ⟨hop, rfl⟩) (ihr hgr hnr hr)) hp

theorem Derives.exists_phrase (h : Derives n p ts e) : ∃ d : Phrase, d.Front n p ts [] ∧ d.expr = e := by
  induction h with
  | operand _ ih =>
    obtain ⟨d, ⟨hg, hn, hp, ht, -⟩, he⟩ := ih
    exact ⟨d, ⟨hg, hn, Nat.le_of_succ_le hp, ht, stops_nil⟩, he⟩
  | @binary n p _ _ t _ _ op _ hmem _ ihl ihr =>
    obtain ⟨l, ⟨hgl, hnl, hpl, rfl, -⟩, rfl⟩ := ihl
    obtain ⟨r, ⟨hgr, hnr, hpr, rfl, -⟩, rfl⟩ := ihr
    obtain ⟨hop, rfl⟩ := mem_operators_iff.mp hmem
    refine ⟨.binary l t op r, ⟨⟨hop, hpl, hpr, hgl, hgr⟩, Nat.max_le.mpr ⟨hnl, hnr⟩, Nat.le_refl _, ?_,
      stops_nil⟩, rfl⟩
    simp [Phrase.tokens]
  | @not n t _ _ ht _ ih =>
    obtain ⟨d, hd, rfl⟩ := ih
    exact ⟨.unary t .not d, (Phrase.front_six_unary (by rw [ht]; rfl)).mpr ⟨n, d, rfl, rfl, hd⟩, rfl⟩
  | @negate n t _ _ ht _ ih =>
    obtain ⟨d, hd, rfl⟩ := ih
    exact ⟨.unary t .negate d, (Phrase.front_six_unary (by rw [ht]; rfl)).mpr ⟨n, d, rfl, rfl, hd⟩, rfl⟩
  | @group n o c _ _ ho _ hc ih =>
    obtain ⟨d, ⟨hg, hn, hp, rfl, -⟩, rfl⟩ := ih
    have hd : d.Front n 1 ((d.tokens ++ []) ++ [c]) [c] := by
      refine ⟨hg, hn, hp, by rw [List.append_nil], ?_⟩
      rw [stops_cons, hc]
      rintro _ ⟨⟩
    exact ⟨.group o d c, (Phrase.front_six_group ho).mpr ⟨n, d, c, rfl, rfl, hc, hd⟩, rfl⟩
  | @primary n t e he =>
    exact ⟨.atom t e, Phrase.front_six_cons.mpr (.inl ⟨e, primary_iff.mp he, rfl, rfl⟩), rfl⟩

/-! ## Expressions at the front of tokens -/

theorem stops_one_iff :
    Stops 1 ts ↔ ∀ t, ts.head? = some t → ∀ p op, (t.kind, op) ∉ operators p := by
  constructor
  · intro h t ht p op hop
    have := h t ht op (mem_operators_iff.mp hop).1
    exact absurd this (Nat.not_lt.mpr op.precedence_pos)
  · intro h t ht op hop
    exact absurd (mem_operators_iff.mpr ⟨hop, rfl⟩) (h t ht _ op)

/-- An expression of `k` tokens begins the tokens just if a phrase for it stands in front and leaves all
but `k` tokens. -/
theorem begins_iff_front : Begins ts e k ↔ ∃ d : Phrase, ∃ rest,
    d.Front maxNesting 1 ts rest ∧ d.expr = e ∧ k = ts.length - rest.length := by
  constructor
  · rintro ⟨hk, hd, hends⟩
    obtain ⟨d, ⟨hg, hn, hp, ht, -⟩, rfl⟩ := hd.exists_phrase
    refine ⟨d, ts.drop k, ⟨hg, hn, hp, ?_, ?_⟩, rfl, ?_⟩
    · rw [← d.tokens.append_nil, ht, List.take_append_drop]
    · rwa [stops_one_iff, List.head?_drop]
    · rw [List.length_drop]
      omega
  · rintro ⟨d, rest, ⟨hg, hn, hp, rfl, hs⟩, rfl, rfl⟩
    have hk : (d.tokens ++ rest).length - rest.length = d.tokens.length := by simp
    rw [hk]
    refine ⟨by simp, ?_, ?_⟩
    · rw [List.take_left]
      exact derives_of_phrase hg hn hp
    · rw [List.getElem?_append_right (Nat.le_refl _), Nat.sub_self, ← List.head?_eq_getElem?]
      exact stops_one_iff.mp hs

/-- The tokens begin with one expression at most. -/
theorem Begins.unique {e' : Expr} {k' : Nat} (h : Begins ts e k) (h' : Begins ts e' k') :
    e = e' ∧ k = k' := by
  obtain ⟨d, rest, hd, rfl, rfl⟩ := begins_iff_front.mp h
  obtain ⟨d', rest', hd', rfl, rfl⟩ := begins_iff_front.mp h'
  obtain ⟨rfl, rfl⟩ := hd.unique (by decide) hd'
  exact ⟨rfl, rfl⟩

/-- An expression is read off the front of tokens just if they begin with it, and they do so with one
expression at most. -/
theorem ofTokens_eq_ok_iff_begins (ts : List Token) :
    (∀ e k, ofTokens ts = .ok (e, k) ↔ Begins ts e k) ∧
      ∀ e k e' k', Begins ts e k → Begins ts e' k' → e = e' ∧ k = k' := by
  refine ⟨fun e k => ?_, fun e k e' k' => Begins.unique⟩
  rw [begins_iff_front, ofTokens, Except.bind_eq_ok_iff]
  constructor
  · rintro ⟨q, hq, hek⟩
    cases hek
    obtain ⟨d, hd, he⟩ := read_iff_front.mp (reads_of_eq hq)
    exact ⟨d, q.rest, hd, he, rfl⟩
  · rintro ⟨d, rest, hd, rfl, rfl⟩
    obtain ⟨hlt, hq⟩ := read_iff_front.mpr ⟨d, hd, rfl⟩
    exact ⟨_, hq, rfl⟩

end Expr
end Pseudocode
