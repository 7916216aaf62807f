import Pseudocode.Expr.Parser

/-! # The grammar of expressions

A phrase says how the tokens of an expression are put together: which operands an operator has, and
which tokens stand in parentheses. No two phrases have the same tokens, also if more tokens follow.
-/

namespace Pseudocode

/-- How tokens are put together to an expression. -/
inductive Phrase where
  | atom (t : Token) (e : Expr)
  | unary (t : Token) (op : UnaryOp) (operand : Phrase)
  | group (opening : Token) (inner : Phrase) (closing : Token)
  | binary (left : Phrase) (t : Token) (op : BinaryOp) (right : Phrase)

namespace Phrase

def tokens : Phrase → List Token
  | .atom t _ => [t]
  | .unary t _ d => t :: d.tokens
  | .group o d c => o :: (d.tokens ++ [c])
  | .binary l t _ r => l.tokens ++ t :: r.tokens

def expr : Phrase → Expr
  | .atom _ e => e
  | .unary _ op d => .unary op d.expr
  | .group _ d _ => d.expr
  | .binary l _ op r => .binary l.expr op r.expr

/-- How many parentheses and unary operators are open at once. -/
def nesting : Phrase → Nat
  | .atom .. => 0
  | .unary _ _ d => d.nesting + 1
  | .group _ d _ => d.nesting + 1
  | .binary l _ _ r => max l.nesting r.nesting

/-- How tightly a phrase holds together: as its outermost operator binds, or more than any. -/
def level : Phrase → Nat
  | .binary _ _ op _ => op.precedence
  | _ => 6

/-- Every token is what its place demands, and every operand holds together more tightly than its
operator binds; the left one as tightly at least. -/
def Grammatical : Phrase → Prop
  | .atom t e => Expr.ofToken? t.kind = some e
  | .unary t op d => UnaryOp.ofToken? t.kind = some op ∧ d.level = 6 ∧ d.Grammatical
  | .group o d c => o.kind = .symbol .leftParen ∧ c.kind = .symbol .rightParen ∧ d.Grammatical
  | .binary l t op r => BinaryOp.ofToken? t.kind = some op ∧ op.precedence ≤ l.level ∧
      op.precedence < r.level ∧ l.Grammatical ∧ r.Grammatical

end Phrase

theorem BinaryOp.precedence_pos (op : BinaryOp) : 1 ≤ op.precedence := by
  rcases op with (_ | _ | _ | _ | _) | _ | (_ | _) <;> simp [precedence]

theorem BinaryOp.precedence_le (op : BinaryOp) : op.precedence ≤ 5 := by
  rcases op with (_ | _ | _ | _ | _) | _ | (_ | _) <;> simp [precedence]

/-- No operator of at least the given precedence stands in front. -/
def Stops (p : Nat) (ts : List Token) : Prop :=
  ∀ t ∈ ts.head?, ∀ op, BinaryOp.ofToken? t.kind = some op → op.precedence < p

theorem stops_nil {p : Nat} : Stops p [] := by
  intro t ht
  cases ht

theorem stops_cons {p : Nat} {t : Token} {ts : List Token} :
    Stops p (t :: ts) ↔ ∀ op, BinaryOp.ofToken? t.kind = some op → op.precedence < p := by
  simp [Stops]

theorem Stops.mono {p q : Nat} {ts : List Token} (h : Stops p ts) (hpq : p ≤ q) : Stops q ts :=
  fun t ht op hop => Nat.lt_of_lt_of_le (h t ht op hop) hpq

theorem stops_six (ts : List Token) : Stops 6 ts :=
  fun _ _ op _ => Nat.lt_succ_of_le op.precedence_le

namespace Phrase

variable {n p : Nat} {d d' : Phrase} {t : Token} {ts rest rest' : List Token}

/-- The phrase holds together on level `p` and stands in front of the rest as long as it can; at most
`n` parentheses and unary operators are open in it. -/
structure Front (n p : Nat) (d : Phrase) (ts rest : List Token) : Prop where
  grammatical : d.Grammatical
  nesting : d.nesting ≤ n
  level : p ≤ d.level
  tokens : d.tokens ++ rest = ts
  stops : Stops p rest

/-- A phrase becomes another one by operators of precedence `p` and their right operands. -/
inductive Grows (n p : Nat) : Phrase → List Token → Phrase → List Token → Prop where
  | stop {d : Phrase} {ts : List Token} : Stops p ts → Grows n p d ts d ts
  | more {a b d : Phrase} {t : Token} {op : BinaryOp} {ts us rest : List Token} :
    BinaryOp.ofToken? t.kind = some op → op.precedence = p → Front n (p + 1) b ts us →
      Grows n p (.binary a t op b) us d rest → Grows n p a (t :: ts) d rest

theorem Grows.front {a : Phrase} (h : Grows n p a ts d rest) (ha : a.Grammatical)
    (hn : a.nesting ≤ n) (hp : p ≤ a.level) : Front n p d (a.tokens ++ ts) rest := by
  induction h with
  | stop hs => exact ⟨ha, hn, hp, rfl, hs⟩
  | @more a b d t op ts us rest hop hprec hb _ ih =>
    have hg : (binary a t op b).Grammatical :=
      ⟨hop, hprec ▸ hp, hprec ▸ hb.level, ha, hb.grammatical⟩
    have hf := ih hg (Nat.max_le.mpr ⟨hn, hb.nesting⟩) (Nat.le_of_eq hprec.symm)
    rw [← hb.tokens]
    simpa [Phrase.tokens] using hf

theorem exists_grows (hp5 : p ≤ 5) (hg : d.Grammatical) (hn : d.nesting ≤ n) (hp : p ≤ d.level)
    (hs : Stops (p + 1) ts) (h : Grows n p d ts d' rest) :
    ∃ a us, Front n (p + 1) a (d.tokens ++ ts) us ∧ Grows n p a us d' rest := by
  rcases Nat.lt_or_eq_of_le hp with hlt | heq
  · exact ⟨d, ts, ⟨hg, hn, hlt, rfl, hs⟩, h⟩
  -- only a phrase with a binary operator stands on level `p` itself
  induction d generalizing ts with
  | atom t e => exact absurd heq (Nat.ne_of_lt (Nat.lt_succ_of_le hp5))
  | unary t op d => exact absurd heq (Nat.ne_of_lt (Nat.lt_succ_of_le hp5))
  | group o d c => exact absurd heq (Nat.ne_of_lt (Nat.lt_succ_of_le hp5))
  | binary l t op r ihl =>
    obtain ⟨hop, hl, hr, hgl, hgr⟩ := hg
    have hprec : op.precedence = p := heq.symm
    obtain ⟨hnl, hnr⟩ := Nat.max_le.mp hn
    have hright : Front n (p + 1) r (r.tokens ++ ts) ts := ⟨hgr, hnr, hprec ▸ hr, rfl, hs⟩
    have hleft : Grows n p l (t :: (r.tokens ++ ts)) d' rest := .more hop hprec hright h
    have hstops : Stops (p + 1) (t :: (r.tokens ++ ts)) := by
      rw [stops_cons, hop]
      rintro _ ⟨⟩
      omega
    rw [hprec] at hl
    rw [tokens, List.append_assoc, List.cons_append]
    rcases Nat.lt_or_eq_of_le hl with hlt | heq'
    · exact ⟨l, _, ⟨hgl, hnl, hlt, rfl, hstops⟩, hleft⟩
    · exact ihl hgl hnl hl hstops hleft heq'

/-- A level is made of operands on the next level with operators between them. -/
theorem front_iff_grows (hp5 : p ≤ 5) :
    Front n p d ts rest ↔ ∃ a us, Front n (p + 1) a ts us ∧ Grows n p a us d rest := by
  constructor
  · intro h
    have := exists_grows hp5 h.grammatical h.nesting h.level (h.stops.mono (Nat.le_succ p))
      (.stop h.stops)
    rwa [h.tokens] at this
  · rintro ⟨a, us, ha, hgrows⟩
    have := hgrows.front ha.grammatical ha.nesting (Nat.le_of_succ_le ha.level)
    rwa [ha.tokens] at this

/-! ## Operands -/

theorem one_le_level (d : Phrase) : 1 ≤ d.level := by
  cases d with
  | binary l t op r => exact op.precedence_pos
  | _ => exact Nat.le_add_left 1 5

theorem front_six_nil : ¬ Front n 6 d [] rest := by
  intro h
  have := h.tokens
  cases d <;> simp [tokens] at this

theorem front_six_cons : Front n 6 d (t :: ts) rest ↔
    (∃ e, Expr.ofToken? t.kind = some e ∧ d = .atom t e ∧ rest = ts) ∨
    (∃ op m d', UnaryOp.ofToken? t.kind = some op ∧ n = m + 1 ∧ d = .unary t op d' ∧
      Front m 6 d' ts rest) ∨
    ∃ m d' c, t.kind = .symbol .leftParen ∧ n = m + 1 ∧ d = .group t d' c ∧
      c.kind = .symbol .rightParen ∧ Front m 1 d' ts (c :: rest) := by
  constructor
  · intro h
    obtain ⟨hg, hn, hp, ht, hs⟩ := h
    cases d with
    | atom u e =>
      obtain ⟨rfl, rfl⟩ := List.cons.inj ht
      exact .inl ⟨e, hg, rfl, rfl⟩
    | unary u op d' =>
      obtain ⟨rfl, htail⟩ := List.cons.inj ht
      obtain ⟨m, rfl⟩ := Nat.exists_eq_add_of_le' (Nat.le_trans (Nat.le_add_left 1 _) hn)
      exact .inr (.inl ⟨op, m, d', hg.1, rfl, rfl, hg.2.2, Nat.le_of_succ_le_succ hn,
        Nat.le_of_eq hg.2.1.symm, htail, hs⟩)
    | group o d' c =>
      obtain ⟨rfl, htail⟩ := List.cons.inj ht
      obtain ⟨m, rfl⟩ := Nat.exists_eq_add_of_le' (Nat.le_trans (Nat.le_add_left 1 _) hn)
      refine .inr (.inr ⟨m, d', c, hg.1, rfl, rfl, hg.2.1, hg.2.2, Nat.le_of_succ_le_succ hn,
        d'.one_le_level, ?_, ?_⟩)
      · simpa using htail
      · rw [stops_cons, hg.2.1]
        rintro _ ⟨⟩
    | binary l u op r =>
      exact absurd hp (Nat.not_le.mpr (Nat.lt_succ_of_le op.precedence_le))
  · rintro (⟨e, he, rfl, rfl⟩ | ⟨op, m, d', hop, rfl, rfl, h⟩ | ⟨m, d', c, ht, rfl, rfl, hc, h⟩)
    · exact ⟨he, Nat.zero_le n, Nat.le_refl 6, rfl, stops_six _⟩
    · have hl : d'.level = 6 := by
        have := h.level
        cases d' with
        | binary l u op r => have := op.precedence_le; simp only [level] at *; omega
        | _ => rfl
      exact ⟨⟨hop, hl, h.grammatical⟩, Nat.succ_le_succ h.nesting, Nat.le_refl 6,
        congrArg (t :: ·) h.tokens, stops_six _⟩
    · refine ⟨⟨ht, hc, h.grammatical⟩, Nat.succ_le_succ h.nesting, Nat.le_refl 6, ?_, stops_six _⟩
      rw [← h.tokens, tokens, List.cons_append, List.append_assoc, List.singleton_append]

theorem front_six_unary {op : UnaryOp} (ht : UnaryOp.ofToken? t.kind = some op) :
    Front n 6 d (t :: ts) rest ↔
      ∃ m d', n = m + 1 ∧ d = .unary t op d' ∧ Front m 6 d' ts rest := by
  have hkind : t.kind = .keyword .not ∨ t.kind = .symbol .minus := by
    revert ht
    unfold UnaryOp.ofToken?
    split <;> simp_all
  have hatom : Expr.ofToken? t.kind = none := by
    rcases hkind with h | h <;> rw [h] <;> rfl
  have hparen : t.kind ≠ .symbol .leftParen := by
    rcases hkind with h | h <;> rw [h] <;> simp
  rw [front_six_cons]
  simp [ht, hatom, hparen]

theorem front_six_group (ht : t.kind = .symbol .leftParen) :
    Front n 6 d (t :: ts) rest ↔ ∃ m d' c, n = m + 1 ∧ d = .group t d' c ∧
      c.kind = .symbol .rightParen ∧ Front m 1 d' ts (c :: rest) := by
  rw [front_six_cons]
  simp [ht, Expr.ofToken?, UnaryOp.ofToken?]

theorem front_six_atom (hu : UnaryOp.ofToken? t.kind = none) (hp : t.kind ≠ .symbol .leftParen) :
    Front n 6 d (t :: ts) rest ↔ ∃ e, Expr.ofToken? t.kind = some e ∧ d = .atom t e ∧ rest = ts := by
  rw [front_six_cons]
  simp [hu, hp]

/-! ## One phrase at most -/

theorem Grows.unique {a : Phrase} {us : List Token}
    (hu : ∀ {ts : List Token} {b b' : Phrase} {us us' : List Token}, Front n (p + 1) b ts us →
      Front n (p + 1) b' ts us' → b = b' ∧ us = us')
    (h : Grows n p a us d rest) (h' : Grows n p a us d' rest') : d = d' ∧ rest = rest' := by
  induction h with
  | stop hs =>
    cases h' with
    | stop => exact ⟨rfl, rfl⟩
    | more hop hprec _ _ => exact absurd hprec (Nat.ne_of_lt (stops_cons.mp hs _ hop))
  | more hop hprec hb _ ih =>
    cases h' with
    | stop hs => exact absurd hprec (Nat.ne_of_lt (stops_cons.mp hs _ hop))
    | more hop' _ hb' h' =>
      obtain ⟨rfl, rfl⟩ := hu hb hb'
      obtain rfl := Option.some.inj (hop.symm.trans hop')
      exact ih h'

/-- If the operands of a level can be taken in one way, so can the phrases on it. -/
theorem Front.unique_of_next (hp5 : p ≤ 5)
    (hu : ∀ {ts : List Token} {b b' : Phrase} {us us' : List Token}, Front n (p + 1) b ts us →
      Front n (p + 1) b' ts us' → b = b' ∧ us = us')
    (h : Front n p d ts rest) (h' : Front n p d' ts rest') : d = d' ∧ rest = rest' := by
  obtain ⟨a, us, ha, hgrows⟩ := (front_iff_grows hp5).mp h
  obtain ⟨a', us', ha', hgrows'⟩ := (front_iff_grows hp5).mp h'
  obtain ⟨rfl, rfl⟩ := hu ha ha'
  exact hgrows.unique hu hgrows'

theorem Front.unique_of_inner
    (hu : ∀ {m p : Nat} {ts : List Token} {b b' : Phrase} {us us' : List Token}, n = m + 1 →
      p ≤ 6 → Front m p b ts us → Front m p b' ts us' → b = b' ∧ us = us')
    (h : Front n 6 d ts rest) (h' : Front n 6 d' ts rest') : d = d' ∧ rest = rest' := by
  cases ts with
  | nil => exact (front_six_nil h).elim
  | cons t ts =>
    cases hop : UnaryOp.ofToken? t.kind with
    | some op =>
      obtain ⟨m, a, hm, rfl, ha⟩ := (front_six_unary hop).mp h
      obtain ⟨m', a', hm', rfl, ha'⟩ := (front_six_unary hop).mp h'
      obtain rfl : m = m' := Nat.succ.inj (hm.symm.trans hm')
      obtain ⟨rfl, rfl⟩ := hu hm (Nat.le_refl 6) ha ha'
      exact ⟨rfl, rfl⟩
    | none =>
      by_cases hp : t.kind = .symbol .leftParen
      · obtain ⟨m, a, c, hm, rfl, -, ha⟩ := (front_six_group hp).mp h
        obtain ⟨m', a', c', hm', rfl, -, ha'⟩ := (front_six_group hp).mp h'
        obtain rfl : m = m' := Nat.succ.inj (hm.symm.trans hm')
        obtain ⟨rfl, hc⟩ := hu hm (by decide) ha ha'
        obtain ⟨rfl, rfl⟩ := List.cons.inj hc
        exact ⟨rfl, rfl⟩
      · obtain ⟨e, he, rfl, rfl⟩ := (front_six_atom hop hp).mp h
        obtain ⟨e', he', rfl, rfl⟩ := (front_six_atom hop hp).mp h'
        exact ⟨by rw [Option.some.inj (he.symm.trans he')], rfl⟩

theorem Front.unique_of_six
    (hu : ∀ {ts : List Token} {b b' : Phrase} {us us' : List Token}, Front n 6 b ts us →
      Front n 6 b' ts us' → b = b' ∧ us = us') (hp : p ≤ 6)
    (h : Front n p d ts rest) (h' : Front n p d' ts rest') : d = d' ∧ rest = rest' := by
  obtain ⟨k, hk⟩ := Nat.exists_eq_add_of_le hp
  induction k generalizing p ts d d' rest rest' with
  | zero =>
    obtain rfl : p = 6 := hk.symm
    exact hu h h'
  | succ k ih =>
    exact h.unique_of_next (by omega) (fun hb hb' => ih (by omega) hb hb' (by omega)) h'

/-- A list of tokens has one phrase in front at most. -/
theorem Front.unique (hp : p ≤ 6) (h : Front n p d ts rest) (h' : Front n p d' ts rest') :
    d = d' ∧ rest = rest' := by
  induction n generalizing p ts d d' rest rest' with
  | zero => exact h.unique_of_six (unique_of_inner fun hm => by cases hm) hp h'
  | succ n ih =>
    refine h.unique_of_six (unique_of_inner fun hm hp h h' => ?_) hp h'
    cases hm
    exact ih hp h h'

end Phrase
end Pseudocode
