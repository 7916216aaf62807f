import Pseudocode.Proofs.Directive.Reading

/-! # The grammar of written values

The value of a directive is a word, a text, numbers with commas between them, or a constant expression
that begins with a parenthesis. How it is read depends on the kinds of its tokens alone.
-/

namespace Pseudocode.WrittenValue

variable {t : Token} {ts us rest : List Token} {x : Float} {xs l : List Float} {v : WrittenValue}
  {final : Span} {line : Nat}

inductive Signed : List Token → Float → Prop where
  | plain {t : Token} {x : Float} : number? t.kind = some x → Signed [t] x
  | minus {m t : Token} {x : Float} :
    m.kind = .symbol .minus → number? t.kind = some x → Signed [m, t] (-x)

inductive More : List Token → List Float → Prop where
  | nil : More [] []
  | cons {c : Token} {ts us : List Token} {x : Float} {xs : List Float} :
    c.kind = .symbol .comma → Signed ts x → More us xs → More (c :: (ts ++ us)) (x :: xs)

inductive Written : List Token → WrittenValue → Prop where
  | word {t : Token} {s : String} : t.kind = .identifier s → Written [t] (.word s)
  | text {t : Token} {s : String} : t.kind = .text s → Written [t] (.text s)
  | numbers {ts us : List Token} {x : Float} {xs : List Float} :
    Signed ts x → More us xs → Written (ts ++ us) (.numbers (x :: xs))
  | constant {d : Phrase} {value : Value} {x : Float} :
    d.Grammatical → d.nesting ≤ maxNesting → (∀ t ∈ d.tokens.head?, t.kind = .symbol .leftParen) →
      d.expr.eval .empty = .ok value → value.toFloat? = some x → Written d.tokens (.numbers [x])

/-- Neither another number nor a binary operator follows. -/
def EndsValue (ts : List Token) : Prop :=
  ∀ t ∈ ts.head?, t.kind ≠ .symbol .comma ∧ BinaryOp.ofToken? t.kind = none

/-! ## Numbers -/

theorem ne_minus_of_number (h : number? t.kind = some x) : t.kind ≠ .symbol .minus := by
  intro ht
  rw [ht] at h
  cases h

theorem reads_readNumber :
    Reads (readNumber final ts) x rest ↔ ∃ t, ts = t :: rest ∧ number? t.kind = some x := by
  cases ts with
  | nil => simp [readNumber]
  | cons t ts =>
    rw [readNumber]
    cases hx : number? t.kind with
    | none =>
      simp only [reads_error, false_iff, not_exists, not_and]
      rintro u hu
      obtain ⟨rfl, rfl⟩ := List.cons.inj hu
      simp [hx]
    | some y =>
      simp only [reads_ok, Parsed.one]
      constructor
      · rintro ⟨rfl, rfl⟩
        exact ⟨t, rfl, hx⟩
      · rintro ⟨u, hu, hy⟩
        obtain ⟨rfl, rfl⟩ := List.cons.inj hu
        exact ⟨Option.some.inj (hx.symm.trans hy), rfl⟩

theorem reads_readSigned :
    Reads (readSigned final ts) x rest ↔ ∃ us, ts = us ++ rest ∧ Signed us x := by
  cases ts with
  | nil =>
    simp only [readSigned, readNumber, reads_error, false_iff, not_exists, not_and]
    intro us hus hs
    obtain ⟨rfl, -⟩ := List.append_eq_nil_iff.mp hus.symm
    cases hs
  | cons t ts =>
    by_cases ht : t.kind = .symbol .minus
    · rw [Directive.reads_readSigned_minus ht]
      simp only [reads_readNumber]
      constructor
      · rintro ⟨d, rfl, u, rfl, hu⟩
        exact ⟨[t, u], rfl, .minus ht hu⟩
      · rintro ⟨us, hus, hs⟩
        cases hs with
        | plain hu =>
          obtain ⟨rfl, -⟩ := List.cons.inj hus
          exact absurd ht (ne_minus_of_number hu)
        | minus _ hu =>
          obtain ⟨rfl, rfl⟩ := List.cons.inj hus
          exact ⟨_, rfl, _, rfl, hu⟩
    · rw [readSigned, if_neg ht, reads_readNumber]
      constructor
      · rintro ⟨u, hu, hx⟩
        obtain ⟨rfl, rfl⟩ := List.cons.inj hu
        exact ⟨[t], rfl, .plain hx⟩
      · rintro ⟨us, hus, hs⟩
        cases hs with
        | plain hu =>
          obtain ⟨rfl, rfl⟩ := List.cons.inj hus
          exact ⟨_, rfl, hu⟩
        | minus hm _ =>
          obtain ⟨rfl, -⟩ := List.cons.inj hus
          exact absurd hm ht

theorem exists_more {ds : Parsed (List Float) ts} (h : Reads (readMore final ds) l rest) :
    ∃ us xs, ds.rest = us ++ rest ∧ More us xs ∧ l = xs.reverse ++ ds.value ∧
      ∀ t ∈ rest.head?, t.kind ≠ .symbol .comma := by
  by_cases hc : ∀ t ∈ ds.rest.head?, t.kind ≠ .symbol .comma
  · obtain ⟨rfl, rfl⟩ := (Directive.reads_readMore_stop hc).mp h
    exact ⟨[], [], rfl, .nil, rfl, hc⟩
  · obtain ⟨t, us, hr, ht⟩ : ∃ t us, ds.rest = t :: us ∧ t.kind = .symbol .comma := by
      cases hr : ds.rest with
      | nil => simp [hr] at hc
      | cons t us => exact ⟨t, us, rfl, by simpa [hr] using hc⟩
    obtain ⟨d, hd, hmore⟩ := (Directive.reads_readMore_comma hr ht).mp h
    obtain ⟨vs, hvs, hsigned⟩ := reads_readSigned.mp (reads_of_eq hd)
    obtain ⟨ws, xs, hws, hxs, rfl, hstop⟩ := exists_more hmore
    have hdrest : d.rest = ws ++ rest := hws
    refine ⟨t :: (vs ++ ws), d.value :: xs, ?_, .cons ht hsigned hxs, ?_, hstop⟩
    · rw [hr, hvs, hdrest, List.cons_append, List.append_assoc]
    · rw [List.reverse_cons, List.append_assoc]
      rfl
termination_by ds.rest.length
decreasing_by exact ds.afterToken_shorter hr d

theorem More.reads (h : More us xs) (hstop : ∀ t ∈ rest.head?, t.kind ≠ .symbol .comma)
    (ds : Parsed (List Float) ts) (hr : ds.rest = us ++ rest) :
    Reads (readMore final ds) (xs.reverse ++ ds.value) rest := by
  induction h generalizing ts with
  | nil => exact (Directive.reads_readMore_stop (by rwa [hr])).mpr ⟨rfl, hr⟩
  | @cons c vs us x xs hc hsigned _ ih =>
    rw [List.cons_append, List.append_assoc] at hr
    have hread : Reads (readSigned final (vs ++ (us ++ rest))) x (us ++ rest) :=
      reads_readSigned.mpr ⟨vs, rfl, hsigned⟩
    obtain ⟨hlt, hd⟩ := hread
    refine (Directive.reads_readMore_comma hr hc).mpr ⟨_, hd, ?_⟩
    have hmore := ih ((ds.afterToken hr ⟨x, us ++ rest, hlt⟩).map (· :: ds.value)) rfl
    rwa [List.reverse_cons, List.append_assoc]

theorem reads_readNumbers :
    Reads (readNumbers final ts) v rest ↔ ∃ us vs x xs, ts = us ++ (vs ++ rest) ∧ Signed us x ∧
      More vs xs ∧ v = .numbers (x :: xs) ∧ ∀ t ∈ rest.head?, t.kind ≠ .symbol .comma := by
  rw [readNumbers, reads_bind]
  constructor
  · rintro ⟨first, hfirst, h⟩
    obtain ⟨ds, hds, h⟩ := reads_bind.mp h
    obtain ⟨rfl, rfl⟩ := reads_ok.mp h
    obtain ⟨us, hus, hsigned⟩ := reads_readSigned.mp (reads_of_eq hfirst)
    obtain ⟨vs, xs, hvs, hmore, hvalue, hstop⟩ := exists_more (reads_of_eq hds)
    have hfrest : first.rest = vs ++ ds.rest := hvs
    refine ⟨us, vs, first.value, xs, hfrest ▸ hus, hsigned, hmore, ?_, hstop⟩
    simp [Parsed.map, hvalue]
  · rintro ⟨us, vs, x, xs, rfl, hsigned, hmore, rfl, hstop⟩
    obtain ⟨hlt, hfirst⟩ : Reads (readSigned final (us ++ (vs ++ rest))) x (vs ++ rest) :=
      reads_readSigned.mpr ⟨us, rfl, hsigned⟩
    obtain ⟨hlt', hds⟩ := hmore.reads hstop (Parsed.map ([·]) ⟨x, vs ++ rest, hlt⟩) rfl
    exact ⟨_, hfirst, reads_bind.mpr ⟨_, hds, reads_ok.mpr ⟨by simp [Parsed.map], rfl⟩⟩⟩

theorem Signed.read_eq (h : Signed us x) (rest : List Token) :
    read final line (us ++ rest) = readNumbers final (us ++ rest) := by
  cases h with
  | @plain t x ht =>
    rw [List.cons_append, read]
    cases hk : t.kind <;> simp [hk, number?] at ht ⊢
  | minus hm ht => simp only [List.cons_append, read, hm]

/-! ## Values -/

/-- The tokens are a value, and what follows does not go on with it. -/
inductive Front : List Token → WrittenValue → List Token → Prop where
  | word {t : Token} {s : String} {rest : List Token} :
    t.kind = .identifier s → Front [t] (.word s) rest
  | text {t : Token} {s : String} {rest : List Token} : t.kind = .text s → Front [t] (.text s) rest
  | numbers {ts us rest : List Token} {x : Float} {xs : List Float} :
    Signed ts x → More us xs → (∀ t ∈ rest.head?, t.kind ≠ .symbol .comma) →
      Front (ts ++ us) (.numbers (x :: xs)) rest
  | constant {d : Phrase} {value : Value} {x : Float} {rest : List Token} :
    d.Grammatical → d.nesting ≤ maxNesting → (∀ t ∈ d.tokens.head?, t.kind = .symbol .leftParen) →
      d.expr.eval .empty = .ok value → value.toFloat? = some x → Stops 1 rest →
        Front d.tokens (.numbers [x]) rest

theorem Front.written (h : Front us v rest) : Written us v := by
  cases h with
  | word hk => exact .word hk
  | text hk => exact .text hk
  | numbers hsigned hmore _ => exact .numbers hsigned hmore
  | constant hg hn hhead hvalue hx _ => exact .constant hg hn hhead hvalue hx

theorem Written.front (h : Written us v) (hrest : EndsValue rest) : Front us v rest := by
  cases h with
  | word hk => exact .word hk
  | text hk => exact .text hk
  | numbers hsigned hmore => exact .numbers hsigned hmore fun t ht => (hrest t ht).1
  | constant hg hn hhead hvalue hx =>
    refine .constant hg hn hhead hvalue hx fun t ht op hop => ?_
    rw [(hrest t ht).2] at hop
    cases hop

theorem Front.reads (h : Front us v rest) : Reads (read final line (us ++ rest)) v rest := by
  cases h with
  | word hk => simp [read, hk, Parsed.one]
  | text hk => simp [read, hk, Parsed.one]
  | @numbers ts us _ x xs hsigned hmore hstop =>
    rw [List.append_assoc, hsigned.read_eq, reads_readNumbers]
    exact ⟨ts, us, x, xs, rfl, hsigned, hmore, rfl, hstop⟩
  | @constant d value x _ hg hn hhead hvalue hx hstops =>
    have hfront : d.Front maxNesting 1 (d.tokens ++ rest) rest :=
      ⟨hg, hn, d.one_le_level, rfl, hstops⟩
    have hconstant : Reads (readConstant final line (d.tokens ++ rest)) (.numbers [x]) rest :=
      Directive.reads_readConstant.mpr
        ⟨d.expr, value, x, Expr.read_iff_front.mpr ⟨d, hfront, rfl⟩, hvalue, hx, rfl⟩
    cases htokens : d.tokens with
    | nil => cases d <;> simp [Phrase.tokens] at htokens
    | cons t ts =>
      have ht : t.kind = .symbol .leftParen := hhead t (by simp [htokens])
      rw [htokens] at hconstant
      simpa only [List.cons_append, read, ht] using hconstant

theorem Written.reads (h : Written us v) (hrest : EndsValue rest) :
    Reads (read final line (us ++ rest)) v rest :=
  (h.front hrest).reads

theorem reads_read : Reads (read final line ts) v rest ↔ ∃ us, ts = us ++ rest ∧ Front us v rest := by
  constructor
  · intro h
    cases ts with
    | nil => exact (reads_error h).elim
    | cons t ts =>
      rw [read] at h
      split at h
      case h_1 s hk =>
        obtain ⟨rfl, rfl⟩ := reads_ok.mp h
        exact ⟨[t], rfl, .word hk⟩
      case h_2 s hk =>
        obtain ⟨rfl, rfl⟩ := reads_ok.mp h
        exact ⟨[t], rfl, .text hk⟩
      case h_3 hk =>
        obtain ⟨e, value, x, he, hvalue, hx, rfl⟩ := Directive.reads_readConstant.mp h
        obtain ⟨d, hd, rfl⟩ := Expr.read_iff_front.mp he
        refine ⟨d.tokens, hd.tokens.symm,
          .constant hd.grammatical hd.nesting ?_ hvalue hx hd.stops⟩
        have hhead := congrArg List.head? hd.tokens
        cases htokens : d.tokens with
        | nil => rintro _ ⟨⟩
        | cons u us => simp_all
      case h_4 | h_5 | h_6 =>
        obtain ⟨us, vs, x, xs, hts, hsigned, hmore, rfl, hstop⟩ := reads_readNumbers.mp h
        exact ⟨us ++ vs, by rw [hts, List.append_assoc], .numbers hsigned hmore hstop⟩
      all_goals exact (reads_error h).elim
  · rintro ⟨us, rfl, h⟩
    exact h.reads

theorem exists_written (h : Reads (read final line ts) v rest) :
    ∃ us, ts = us ++ rest ∧ Written us v := by
  obtain ⟨us, hus, hfront⟩ := reads_read.mp h
  exact ⟨us, hus, hfront.written⟩

end Pseudocode.WrittenValue
