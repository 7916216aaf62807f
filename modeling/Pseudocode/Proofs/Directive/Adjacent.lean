import Pseudocode.Proofs.Directive.Grammar
import Pseudocode.Proofs.Expr.Typing
import Pseudocode.Proofs.Token.Relexing

/-! # Values without blanks

The tokens of a value that stand right next to each other are read as they are, but for a remainder that
the number it is taken by follows: the two together make a name. No other operator can run into an operand,
since the only constants that are values are numbers, put together by arithmetic.
-/

namespace Pseudocode

variable {t u : Token} {ts us : List Token} {k k' : TokenKind}

/-! ## Lexemes next to each other -/

namespace Lexer

variable {rest : List Char}

/-- The token goes on with no number that stands right before it. -/
def EndsNumber (k : TokenKind) : Prop :=
  ∀ c, Begins k c → ¬ c.isDigit ∧ c ≠ '.'

theorem endsNumber_keyword (w : Keyword) : EndsNumber (.keyword w) := by
  intro c hc
  exact ⟨not_isDigit_of_isLetter hc, ne_of_isLetter hc (by decide)⟩

theorem endsNumber_symbol {s : Symbol} (hs : s ≠ .dot) : EndsNumber (.symbol s) := by
  rintro _ rfl
  cases s <;> first | exact absurd rfl hs | decide

theorem EndsNumber.separate (h : EndsNumber k') (hk : (WrittenValue.number? k).isSome) :
    Separate k k' := by
  intro c rest hc
  obtain ⟨hdigit, hpoint⟩ := h c hc
  have hhead : ∀ d ∈ (c :: rest).head?, ¬ d.isDigit := by
    rintro _ ⟨⟩
    exact hdigit
  cases k with
  | integer n =>
    refine ⟨hhead, ?_⟩
    unfold fractionLength
    split
    case h_1 heq => exact absurd (List.cons.inj heq).1 hpoint
    case h_2 => rfl
  | decimal d => exact hhead
  | _ => simp [WrittenValue.number?] at hk

theorem separate_symbol {s : Symbol} (hs : s ∉ [.less, .greater]) : Separate (.symbol s) k' := by
  intro c rest _
  cases s <;> first | exact absurd hs (by decide) | trivial

theorem separate_keyword_symbol (w : Keyword) (s : Symbol) :
    Separate (.keyword w) (.symbol s) := by
  rintro _ rest rfl c hc
  obtain rfl : s.first = c := Option.some.inj hc
  cases s <;> decide

end Lexer

/-! ## Constants -/

theorem Agrees.eq_some {v : Value} {ty : Option ValueType} (h : Agrees (.ok v) ty) :
    ty = some v.type := by
  cases ty with
  | none =>
    obtain ⟨e, he⟩ := h
    cases he
  | some s =>
    cases h with
    | value _ h => rw [h]

theorem BinaryOp.exists_arith {op : BinaryOp} {r s t : ValueType} (h : op.type? r s = some t)
    (ht : t.isNumeric) : ∃ a, op = .arith a ∧ r.isNumeric ∧ s.isNumeric := by
  cases op with
  | arith a =>
    refine ⟨a, rfl, ?_⟩
    cases r <;> cases s <;> simp_all [type?, ValueType.isNumeric]
  | compare c =>
    obtain rfl : t = .boolean := by
      cases c <;> cases r <;> cases s <;> simp_all [type?, ValueType.isNumeric]
    cases ht
  | logic l =>
    obtain rfl : t = .boolean := by
      cases r <;> cases s <;> simp_all [type?]
    cases ht

theorem UnaryOp.eq_negate {op : UnaryOp} {s t : ValueType} (h : op.type? s = some t)
    (ht : t.isNumeric) : op = .negate ∧ s.isNumeric := by
  cases op <;> cases s <;> simp_all [type?, ValueType.isNumeric]
  subst h
  cases ht

theorem Expr.eval_binary {l r : Expr} {op : BinaryOp} {v : Value}
    (h : (Expr.binary l op r).eval .empty = .ok v) (hv : v.type.isNumeric) :
    ∃ o a b, op = .arith o ∧ l.eval .empty = .ok a ∧ a.type.isNumeric ∧ r.eval .empty = .ok b ∧
      b.type.isNumeric := by
  obtain ⟨a, ha, h⟩ := Except.bind_eq_ok_iff.mp h
  obtain ⟨b, hb, h⟩ := Except.bind_eq_ok_iff.mp h
  have htype := (h ▸ evalBinary_agrees op a b).eq_some
  obtain ⟨o, rfl, hanum, hbnum⟩ := BinaryOp.exists_arith htype hv
  exact ⟨o, a, b, rfl, ha, hanum, hb, hbnum⟩

theorem Expr.eval_unary {e : Expr} {op : UnaryOp} {v : Value}
    (h : (Expr.unary op e).eval .empty = .ok v) (hv : v.type.isNumeric) :
    op = .negate ∧ ∃ a, e.eval .empty = .ok a ∧ a.type.isNumeric := by
  obtain ⟨a, ha, h⟩ := Except.bind_eq_ok_iff.mp h
  have htype := (h ▸ evalUnary_agrees op a).eq_some
  obtain ⟨hop, hanum⟩ := UnaryOp.eq_negate htype hv
  exact ⟨hop, a, ha, hanum⟩

open Lexer in
/-- Nothing is read across the two tokens, unless they are a remainder and the number it is taken by. -/
def Adjoins (t u : Token) : Prop :=
  Separate t.kind u.kind ∨ t.kind = .keyword .mod ∧ (WrittenValue.number? u.kind).isSome

/-- The token begins a number, with parentheses and signs. -/
def Opens (t : Token) : Prop :=
  (WrittenValue.number? t.kind).isSome ∨ t.kind = .symbol .minus ∨ t.kind = .symbol .leftParen

def Closes (t : Token) : Prop :=
  (WrittenValue.number? t.kind).isSome ∨ t.kind = .symbol .rightParen

theorem adjoins_symbol {s : Symbol} (ht : t.kind = .symbol s) (hs : s ∉ [.less, .greater]) :
    Adjoins t u :=
  .inl (ht ▸ Lexer.separate_symbol hs)

theorem Closes.adjoins (ht : Closes t) (hu : Lexer.EndsNumber u.kind) : Adjoins t u := by
  rcases ht with ht | ht
  · exact .inl (hu.separate ht)
  · exact adjoins_symbol ht (by decide)

theorem BinaryOp.kind_of_arith {o : ArithOp} (h : BinaryOp.ofToken? k = some (.arith o)) :
    k = .keyword .mod ∨ ∃ s, k = .symbol s ∧ s ∉ [.less, .greater] ∧ s ≠ .dot := by
  unfold BinaryOp.ofToken? at h
  split at h <;> cases h
  case h_3 => exact .inl rfl
  all_goals exact .inr ⟨_, rfl, by decide, by decide⟩

theorem endsNumber_of_arith {o : ArithOp} (h : BinaryOp.ofToken? k = some (.arith o)) :
    Lexer.EndsNumber k := by
  rcases BinaryOp.kind_of_arith h with rfl | ⟨s, rfl, -, hs⟩
  · exact Lexer.endsNumber_keyword .mod
  · exact Lexer.endsNumber_symbol hs

theorem Opens.adjoins {o : ArithOp} (hu : Opens u)
    (ht : BinaryOp.ofToken? t.kind = some (.arith o)) : Adjoins t u := by
  rcases BinaryOp.kind_of_arith ht with ht | ⟨s, ht, hs, -⟩
  · rcases hu with hu | hu | hu
    · exact .inr ⟨ht, hu⟩
    · exact .inl (ht ▸ hu ▸ Lexer.separate_keyword_symbol .mod .minus)
    · exact .inl (ht ▸ hu ▸ Lexer.separate_keyword_symbol .mod .leftParen)
  · exact adjoins_symbol ht hs

namespace Phrase

theorem tokens_ne_nil (d : Phrase) : d.tokens ≠ [] := by
  cases d <;> simp [tokens]

theorem isSome_number? {e : Expr} {v : Value} (h : Expr.ofToken? k = some e)
    (he : e.eval .empty = .ok v) (hv : v.type.isNumeric) : (WrittenValue.number? k).isSome := by
  have hliteral : ∀ w : Value, (Expr.literal w).eval .empty = .ok v → w.type.isNumeric := by
    rintro w ⟨⟩
    exact hv
  cases k with
  | integer n => rfl
  | decimal d => rfl
  | text s =>
    obtain rfl := Option.some.inj h
    exact absurd (hliteral _ he) (by simp [Value.type, ValueType.isNumeric])
  | keyword w =>
    cases w with
    | verdadero | falso =>
      obtain rfl := Option.some.inj h
      exact absurd (hliteral _ he) (by simp [Value.type, ValueType.isNumeric])
    | _ => cases h
  | identifier x =>
    obtain rfl := Option.some.inj h
    simp [Expr.eval, Environment.lookup] at he
  | _ => cases h

/-- The tokens of a phrase without variables that has a number as its value. -/
structure Numeric (d : Phrase) : Prop where
  chain : d.tokens.IsChain Adjoins
  head : ∀ t ∈ d.tokens.head?, Opens t
  last : ∀ t ∈ d.tokens.getLast?, Closes t

theorem Grammatical.numeric {d : Phrase} (h : d.Grammatical) {v : Value}
    (he : d.expr.eval .empty = .ok v) (hv : v.type.isNumeric) : d.Numeric := by
  induction d generalizing v with
  | atom t e =>
    have ht : (WrittenValue.number? t.kind).isSome := isSome_number? h he hv
    exact ⟨.singleton t, by rintro _ ⟨⟩; exact .inl ht, by rintro _ ⟨⟩; exact .inl ht⟩
  | unary t op d ih =>
    obtain ⟨hop, -, hd⟩ := h
    obtain ⟨rfl, a, ha, hanum⟩ := Expr.eval_unary he hv
    have ht : t.kind = .symbol .minus := by
      unfold UnaryOp.ofToken? at hop
      split at hop <;> first | assumption | cases hop
    obtain ⟨hchain, -, hlast⟩ := ih hd ha hanum
    refine ⟨?_, ?_, ?_⟩
    · exact List.isChain_cons.mpr ⟨fun u _ => adjoins_symbol ht (by decide), hchain⟩
    · rintro _ ⟨⟩
      exact .inr (.inl ht)
    · rwa [tokens, List.getLast?_cons_of_ne_nil d.tokens_ne_nil]
  | group o d c ih =>
    obtain ⟨ho, hc, hd⟩ := h
    obtain ⟨hchain, -, hlast⟩ := ih hd he hv
    have hend : Lexer.EndsNumber c.kind := hc ▸ Lexer.endsNumber_symbol (by decide)
    refine ⟨?_, ?_, ?_⟩
    · refine List.isChain_cons.mpr ⟨fun u _ => adjoins_symbol ho (by decide), ?_⟩
      refine hchain.append (.singleton c) fun t ht u hu => ?_
      obtain rfl := Option.some.inj hu
      exact (hlast t ht).adjoins hend
    · rintro _ ⟨⟩
      exact .inr (.inr ho)
    · rw [tokens, List.getLast?_cons_of_ne_nil (by simp), List.getLast?_concat]
      rintro _ ⟨⟩
      exact .inr hc
  | binary l t op r ihl ihr =>
    obtain ⟨hop, -, -, hl, hr⟩ := h
    obtain ⟨o, a, b, rfl, ha, hanum, hb, hbnum⟩ := Expr.eval_binary he hv
    obtain ⟨hlchain, hlhead, hllast⟩ := ihl hl ha hanum
    obtain ⟨hrchain, hrhead, hrlast⟩ := ihr hr hb hbnum
    refine ⟨?_, ?_, ?_⟩
    · refine hlchain.append (List.isChain_cons.mpr ⟨fun u hu => (hrhead u hu).adjoins hop, hrchain⟩) ?_
      intro u hu u' hu'
      obtain rfl := Option.some.inj hu'
      exact (hllast u hu).adjoins (endsNumber_of_arith hop)
    · rwa [tokens, List.head?_append_of_ne_nil _ l.tokens_ne_nil]
    · rwa [tokens, List.getLast?_append_of_ne_nil _ (List.cons_ne_nil _ _),
        List.getLast?_cons_of_ne_nil r.tokens_ne_nil]

end Phrase

/-! ## Values next to nothing -/

theorem Keyword.eq_mod {s : String} (h : Keyword.ofWord? s = some .mod) : s = "MOD" := by
  unfold Keyword.ofWord? at h
  split at h <;> cases h
  rfl

namespace WrittenValue

open Lexer

variable {x : Float} {xs : List Float} {v : WrittenValue}

/-- The text is that of a constant in which a remainder runs into the number it is taken by. -/
def RunsTogether (cs : List Char) : Prop :=
  cs.head? = some '(' ∧ ∃ ds ∈ cs.tails, "MOD".toList <+: ds ∧ (ds.drop 3).head?.any Char.isDigit

instance : DecidablePred RunsTogether :=
  fun _ => inferInstanceAs (Decidable (_ ∧ _))

theorem Signed.chain (h : Signed us x) : (us.IsChain fun t u => Separate t.kind u.kind) ∧
    ∀ t ∈ us.getLast?, (number? t.kind).isSome := by
  cases h with
  | plain ht =>
    refine ⟨.singleton _, ?_⟩
    rintro _ ⟨⟩
    simp [ht]
  | minus hm ht =>
    refine ⟨List.isChain_pair.mpr (hm ▸ separate_symbol (by decide)), ?_⟩
    rintro _ ⟨⟩
    simp [ht]

theorem More.chain (h : More us xs) : (us.IsChain fun t u => Separate t.kind u.kind) ∧
    ∀ t ∈ us.head?, EndsNumber t.kind := by
  induction h with
  | nil => exact ⟨.nil, nofun⟩
  | cons hc hsigned _ ih =>
    obtain ⟨hchain, hlast⟩ := hsigned.chain
    constructor
    · refine List.isChain_cons.mpr ⟨fun u _ => hc ▸ separate_symbol (by decide), ?_⟩
      exact hchain.append ih.1 fun t ht u hu => (ih.2 u hu).separate (hlast t ht)
    · rintro _ ⟨⟩
      exact hc ▸ endsNumber_symbol (by decide)

theorem Signed.chain_append (h : Signed ts x) (h' : More us xs) :
    (ts ++ us).IsChain fun t u => Separate t.kind u.kind := by
  obtain ⟨hchain, hlast⟩ := h.chain
  obtain ⟨hchain', hhead⟩ := h'.chain
  exact hchain.append hchain' fun t ht u hu => (hhead u hu).separate (hlast t ht)

theorem runsTogether {l : List Token} (hlexed : ∀ t ∈ us, Lexed t) (hus : us = l ++ t :: u :: ts)
    (hhead : ∀ w ∈ us.head?, w.kind = .symbol .leftParen) (ht : t.kind = .keyword .mod)
    (hu : (number? u.kind).isSome) : RunsTogether (us.flatMap (·.lexeme.toList)) := by
  subst hus
  cases l with
  | nil =>
    have hleft := hhead t rfl
    rw [ht] at hleft
    cases hleft
  | cons w l =>
    obtain ⟨_, cs, hw, hbegins⟩ := (hlexed w (by simp)).exists_begins
    obtain ⟨c, ds, hc, hbegins'⟩ := (hlexed u (by simp)).exists_begins
    rw [hhead w rfl] at hbegins
    subst hbegins
    have hlexeme : t.lexeme = "MOD" := Keyword.eq_mod ((hlexed t (by simp)).ofWord?_of_keyword ht)
    have hdigit : c.isDigit := by
      cases hk : u.kind <;> simp_all [number?, Begins]
    refine ⟨?_, "MOD".toList ++ c :: (ds ++ ts.flatMap (·.lexeme.toList)), ?_, ?_, ?_⟩
    · simp [hw, Symbol.first]
    · rw [List.mem_tails]
      exact ⟨w.lexeme.toList ++ l.flatMap (·.lexeme.toList), by simp [hc, hlexeme]⟩
    · exact List.prefix_append _ _
    · simpa using hdigit

/-- The tokens of a value keep apart without blanks, unless a remainder runs into a number. -/
theorem Written.chain (h : Written us v) (hlexed : ∀ t ∈ us, Lexed t)
    (hruns : ¬ RunsTogether (us.flatMap (·.lexeme.toList))) :
    us.IsChain fun t u => Separate t.kind u.kind := by
  cases h with
  | word => exact .singleton _
  | text => exact .singleton _
  | numbers hsigned hmore => exact hsigned.chain_append hmore
  | @constant d value x hg _ hhead hvalue hx =>
    have hnumeric : value.type.isNumeric := by
      cases value <;> first | rfl | cases hx
    have hchain := (hg.numeric hvalue hnumeric).chain
    rw [List.isChain_iff_forall_rel_of_append_cons_cons] at hchain ⊢
    intro t u l ts hus
    rcases hchain hus with hseparate | ⟨ht, hu⟩
    · exact hseparate
    · exact absurd (runsTogether hlexed hus hhead ht hu) hruns

end WrittenValue

end Pseudocode
