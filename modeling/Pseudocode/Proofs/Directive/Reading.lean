import Pseudocode.Directive.Parser
import Pseudocode.Proofs.Expr.Reading

/-! # Directives stand on one line

A directive ends where its line ends: what is read for it is taken from the line, and whatever follows
the line makes no difference.
-/

namespace Pseudocode.Directive

variable {α : Type} {t : Token} {ts us rest rest' : List Token} {a : α} {final : Span}

/-- Two token lists go on in the same way up to the end of the line. -/
def SameLine (ts us : List Token) : Prop :=
  ts.takeWhile onLine = us.takeWhile onLine

theorem SameLine.symm (h : SameLine ts us) : SameLine us ts :=
  Eq.symm h

theorem SameLine.cons (t : Token) (h : SameLine ts us) : SameLine (t :: ts) (t :: us) := by
  simp only [SameLine, List.takeWhile_cons, show ts.takeWhile onLine = us.takeWhile onLine from h]

theorem SameLine.append (ws : List Token) (h : SameLine ts us) : SameLine (ws ++ ts) (ws ++ us) := by
  induction ws with
  | nil => exact h
  | cons w ws ih => exact ih.cons w

theorem SameLine.head {ts' : List Token} (h : SameLine (t :: ts) ts') (ht : onLine t) :
    ∃ us, ts' = t :: us ∧ SameLine ts us := by
  rw [SameLine, List.takeWhile_cons_of_pos ht] at h
  cases ts' with
  | nil => cases h
  | cons u us =>
    by_cases hu : onLine u
    · rw [List.takeWhile_cons_of_pos hu] at h
      obtain ⟨rfl, hl⟩ := List.cons.inj h
      exact ⟨us, rfl, hl⟩
    · rw [List.takeWhile_cons_of_neg hu] at h
      cases h

/-- What is read off `ts` is taken from its first line, and does not depend on what follows it. -/
def Within (read : Span → Reading α) (ts : List Token) (a : α) (rest : List Token) : Prop :=
  ∃ us, ts = us ++ rest ∧ (∀ t ∈ us, onLine t) ∧
    ∀ final' rest', SameLine rest rest' → Reads (read final' (us ++ rest')) a rest'

theorem Within.of_one {read : Span → Reading α} (ht : onLine t)
    (h : ∀ final' rest', Reads (read final' (t :: rest')) a rest') : Within read (t :: ts) a ts :=
  ⟨[t], rfl, by simpa using ht, fun final' rest' _ => h final' rest'⟩

theorem Within.congr {read read' : Span → Reading α} (h : Within read' ts a rest)
    (hlt : rest.length < ts.length)
    (hr : ∀ final t us, ts.head? = some t → read final (t :: us) = read' final (t :: us)) :
    Within read ts a rest := by
  obtain ⟨us, rfl, hus, hread⟩ := h
  refine ⟨us, rfl, hus, fun final' rest' hl => ?_⟩
  cases us with
  | nil => exact absurd hlt (Nat.lt_irrefl _)
  | cons u us =>
    rw [List.cons_append, hr final' u _ rfl]
    exact hread final' rest' hl

/-! ## Expressions -/

theorem onLine_iff : onLine t ↔ t.kind ≠ .newline ∧ t.kind ≠ .endOfInput := by
  unfold onLine
  split <;> simp_all

theorem onLine_of_atom {e : Expr} (h : Expr.ofToken? t.kind = some e) : onLine t := by
  rw [onLine_iff]
  constructor <;> rintro hk <;> rw [hk] at h <;> cases h

theorem onLine_of_unary {op : UnaryOp} (h : UnaryOp.ofToken? t.kind = some op) : onLine t := by
  rw [onLine_iff]
  constructor <;> rintro hk <;> rw [hk] at h <;> cases h

theorem onLine_of_binary {op : BinaryOp} (h : BinaryOp.ofToken? t.kind = some op) : onLine t := by
  rw [onLine_iff]
  constructor <;> rintro hk <;> rw [hk] at h <;> cases h

theorem onLine_of_phrase {d : Phrase} (h : d.Grammatical) : ∀ t ∈ d.tokens, onLine t := by
  induction d with
  | atom t e => simpa [Phrase.tokens] using onLine_of_atom h
  | unary t op d ih => simpa [Phrase.tokens] using ⟨onLine_of_unary h.1, ih h.2.2⟩
  | group o d c ih =>
    have ho : onLine o := onLine_iff.mpr (by simp [h.1])
    have hc : onLine c := onLine_iff.mpr (by simp [h.2.1])
    intro t ht
    simp only [Phrase.tokens, List.mem_cons, List.mem_append, List.not_mem_nil, or_false] at ht
    rcases ht with rfl | ht | rfl
    · exact ho
    · exact ih h.2.2 t ht
    · exact hc
  | binary l u op r ihl ihr =>
    have hu : onLine u := onLine_of_binary h.1
    intro t ht
    simp only [Phrase.tokens, List.mem_append, List.mem_cons] at ht
    rcases ht with ht | rfl | ht
    · exact ihl h.2.2.2.1 t ht
    · exact hu
    · exact ihr h.2.2.2.2 t ht

theorem stops_of_sameLine {p : Nat} (h : SameLine ts us) (hs : Stops p ts) : Stops p us := by
  cases us with
  | nil => exact stops_nil
  | cons u us =>
    rw [stops_cons]
    intro op hop
    obtain ⟨ts', rfl, -⟩ := h.symm.head (onLine_of_binary hop)
    exact stops_cons.mp hs op hop

theorem read_expr_within {e : Expr} (h : Reads (Expr.read final ts) e rest) :
    Within Expr.read ts e rest := by
  obtain ⟨d, hd, rfl⟩ := Expr.read_iff_front.mp h
  refine ⟨d.tokens, hd.tokens.symm, onLine_of_phrase hd.grammatical, fun final' rest' hl => ?_⟩
  exact Expr.read_iff_front.mpr
    ⟨d, ⟨hd.grammatical, hd.nesting, hd.level, rfl, stops_of_sameLine hl hd.stops⟩, rfl⟩

/-! ## Written values -/

theorem readNumber_within {d : Float} (h : Reads (WrittenValue.readNumber final ts) d rest) :
    Within WrittenValue.readNumber ts d rest := by
  cases ts with
  | nil => exact (reads_error h).elim
  | cons t ts =>
    rw [WrittenValue.readNumber] at h
    cases hd : WrittenValue.number? t.kind with
    | none => simp [hd] at h
    | some d' =>
      simp only [hd, reads_ok] at h
      obtain ⟨rfl, rfl⟩ := h
      refine .of_one (onLine_iff.mpr ?_) fun final' rest' => ?_
      · constructor <;> rintro hk <;> rw [hk] at hd <;> cases hd
      · simp [WrittenValue.readNumber, hd, Parsed.one]

theorem reads_readSigned_minus {x : Float} (ht : t.kind = .symbol .minus) :
    Reads (WrittenValue.readSigned final (t :: ts)) x rest ↔
      ∃ d, x = -d ∧ Reads (WrittenValue.readNumber final ts) d rest := by
  rw [WrittenValue.readSigned, if_pos ht, reads_map]
  constructor
  · rintro ⟨p, hp, rfl, rfl⟩
    exact ⟨p.value, rfl, reads_of_eq hp⟩
  · rintro ⟨d, rfl, hlt, hp⟩
    exact ⟨_, hp, rfl, rfl⟩

theorem readSigned_within {x : Float} (h : Reads (WrittenValue.readSigned final ts) x rest) :
    Within WrittenValue.readSigned ts x rest := by
  cases ts with
  | nil => exact (reads_error h).elim
  | cons t ts =>
    by_cases ht : t.kind = .symbol .minus
    · obtain ⟨d, rfl, hd⟩ := (reads_readSigned_minus ht).mp h
      obtain ⟨us, rfl, hus, hread⟩ := readNumber_within hd
      have htl : onLine t := onLine_iff.mpr (by simp [ht])
      refine ⟨t :: us, rfl, by simpa using ⟨htl, hus⟩, fun final' rest' hl => ?_⟩
      exact (reads_readSigned_minus ht).mpr ⟨d, rfl, hread final' rest' hl⟩
    · have hlt := h.shorter
      rw [WrittenValue.readSigned, if_neg ht] at h
      refine (readNumber_within h).congr hlt ?_
      rintro final' _ us ⟨⟩
      rw [WrittenValue.readSigned, if_neg ht]

theorem reads_readMore_stop {ds : Parsed (List Float) ts} {l : List Float}
    (h : ∀ t ∈ ds.rest.head?, t.kind ≠ .symbol .comma) :
    Reads (WrittenValue.readMore final ds) l rest ↔ ds.value = l ∧ ds.rest = rest := by
  rw [WrittenValue.readMore.eq_def]
  split
  case h_1 => exact reads_ok
  case h_2 t rest' hrest =>
    rw [if_neg (h t (by simp [hrest]))]
    exact reads_ok

theorem reads_readMore_comma {ds : Parsed (List Float) ts} {l : List Float} (hr : ds.rest = t :: us)
    (ht : t.kind = .symbol .comma) :
    Reads (WrittenValue.readMore final ds) l rest ↔
      ∃ d, WrittenValue.readSigned final us = .ok d ∧
        Reads (WrittenValue.readMore final ((ds.afterToken hr d).map (· :: ds.value))) l rest := by
  rw [WrittenValue.readMore.eq_def]
  split
  case h_1 hnil => rw [hr] at hnil; cases hnil
  case h_2 t' us' hrest =>
    obtain ⟨rfl, rfl⟩ := List.cons.inj (hr.symm.trans hrest)
    rw [if_pos ht]
    exact reads_bind

/-- More numbers are read off the line, and whatever follows the line makes no difference. -/
theorem readMore_within {ds : Parsed (List Float) ts} {l : List Float}
    (h : Reads (WrittenValue.readMore final ds) l rest) :
    ∃ us, ds.rest = us ++ rest ∧ (∀ t ∈ us, onLine t) ∧
      ∀ final' ts' (ds' : Parsed (List Float) ts') rest', SameLine rest rest' →
        ds'.value = ds.value → ds'.rest = us ++ rest' →
        Reads (WrittenValue.readMore final' ds') l rest' := by
  have hcomma : ∀ {u : Token}, u.kind = .symbol .comma → onLine u := fun hu =>
    onLine_iff.mpr (by simp [hu])
  by_cases hc : ∃ t us, ds.rest = t :: us ∧ t.kind = .symbol .comma
  · obtain ⟨t, us, hr, ht⟩ := hc
    obtain ⟨d, hd, hmore⟩ := (reads_readMore_comma hr ht).mp h
    obtain ⟨vs, hvs, honvs, hsigned⟩ := readSigned_within (reads_of_eq hd)
    obtain ⟨ws, hws, honws, hrest⟩ := readMore_within hmore
    have hdrest : d.rest = ws ++ rest := hws
    refine ⟨t :: (vs ++ ws), by rw [hr, hvs, hdrest]; simp, ?_, ?_⟩
    · intro u hu
      rcases List.mem_cons.mp hu with rfl | hu
      · exact hcomma ht
      · exact (List.mem_append.mp hu).elim (honvs u) (honws u)
    · intro final' ts' ds' rest' hl hv hr'
      rw [List.cons_append, List.append_assoc] at hr'
      obtain ⟨hlt, hd'⟩ := hsigned final' (ws ++ rest') (hdrest ▸ hl.append ws)
      refine (reads_readMore_comma hr' ht).mpr ⟨_, hd', hrest final' _ _ rest' hl ?_ rfl⟩
      exact congrArg (d.value :: ·) hv
  · have hstop : ∀ u ∈ ds.rest.head?, u.kind ≠ .symbol .comma := by
      intro u hu hk
      obtain ⟨us, hr⟩ := List.head?_eq_some_iff.mp hu
      exact hc ⟨u, us, hr, hk⟩
    obtain ⟨rfl, rfl⟩ := (reads_readMore_stop hstop).mp h
    refine ⟨[], rfl, by simp, fun final' ts' ds' rest' hl hv hr' => ?_⟩
    refine (reads_readMore_stop fun u hu hk => ?_).mpr ⟨hv, hr'⟩
    obtain ⟨us, hr⟩ := List.head?_eq_some_iff.mp (hr' ▸ hu)
    rw [List.nil_append] at hr
    obtain ⟨us', hrest, -⟩ := (hr ▸ hl.symm).head (hcomma hk)
    exact hc ⟨u, us', hrest, hk⟩
termination_by ds.rest.length
decreasing_by exact ds.afterToken_shorter hr d

theorem readNumbers_within {v : WrittenValue}
    (h : Reads (WrittenValue.readNumbers final ts) v rest) :
    Within WrittenValue.readNumbers ts v rest := by
  obtain ⟨first, hfirst, h⟩ := reads_bind.mp h
  obtain ⟨ds, hds, h⟩ := reads_bind.mp h
  obtain ⟨rfl, rfl⟩ := reads_ok.mp h
  obtain ⟨us, hus, honus, hsigned⟩ := readSigned_within (reads_of_eq hfirst)
  obtain ⟨vs, hvs, honvs, hmore⟩ := readMore_within (reads_of_eq hds)
  have hfrest : first.rest = vs ++ ds.rest := hvs
  have hts : ts = us ++ vs ++ ds.rest := by rw [List.append_assoc, ← hfrest, ← hus]
  refine ⟨us ++ vs, hts, fun t ht => (List.mem_append.mp ht).elim (honus t) (honvs t),
    fun final' rest' hl => ?_⟩
  obtain ⟨hlt, hfirst'⟩ := hsigned final' (vs ++ rest') (hfrest ▸ hl.append vs)
  rw [List.append_assoc]
  obtain ⟨hlt', hds'⟩ := hmore final' _ (Parsed.map ([·]) ⟨first.value, vs ++ rest', hlt⟩) rest'
    hl rfl rfl
  exact reads_bind.mpr ⟨_, hfirst', reads_bind.mpr ⟨_, hds', reads_ok.mpr ⟨rfl, rfl⟩⟩⟩

theorem reads_readConstant {line : Nat} {v : WrittenValue} :
    Reads (WrittenValue.readConstant final line ts) v rest ↔ ∃ e x d,
      Reads (Expr.read final ts) e rest ∧ e.eval .empty = .ok x ∧ x.toFloat? = some d ∧
        v = .numbers [d] := by
  rw [WrittenValue.readConstant, reads_bind]
  constructor
  · rintro ⟨e, he, h⟩
    split at h
    case h_1 => exact (reads_error h).elim
    case h_2 x hx =>
      split at h
      case h_1 d hd =>
        obtain ⟨rfl, rfl⟩ := reads_ok.mp h
        exact ⟨e.value, x, d, reads_of_eq he, hx, hd, rfl⟩
      case h_2 => exact (reads_error h).elim
  · rintro ⟨e, x, d, ⟨hlt, he⟩, hx, hd, rfl⟩
    refine ⟨_, he, ?_⟩
    simp only [hx, hd]
    exact reads_ok.mpr ⟨rfl, rfl⟩

theorem readConstant_within {line : Nat} {v : WrittenValue}
    (h : Reads (WrittenValue.readConstant final line ts) v rest) :
    Within (WrittenValue.readConstant · line) ts v rest := by
  obtain ⟨e, x, d, he, hx, hd, rfl⟩ := reads_readConstant.mp h
  obtain ⟨us, hus, honus, hexpr⟩ := read_expr_within he
  exact ⟨us, hus, honus, fun final' rest' hl =>
    reads_readConstant.mpr ⟨e, x, d, hexpr final' rest' hl, hx, hd, rfl⟩⟩

theorem read_value_within {line : Nat} {v : WrittenValue}
    (h : Reads (WrittenValue.read final line ts) v rest) :
    Within (WrittenValue.read · line) ts v rest := by
  cases ts with
  | nil => exact (reads_error h).elim
  | cons t ts =>
    have hlt := h.shorter
    rw [WrittenValue.read] at h
    split at h
    case h_1 s hk =>
      obtain ⟨rfl, rfl⟩ := reads_ok.mp h
      exact .of_one (onLine_iff.mpr (by simp [hk])) fun final' rest' => by
        simp [WrittenValue.read, hk, Parsed.one]
    case h_2 s hk =>
      obtain ⟨rfl, rfl⟩ := reads_ok.mp h
      exact .of_one (onLine_iff.mpr (by simp [hk])) fun final' rest' => by
        simp [WrittenValue.read, hk, Parsed.one]
    case h_3 hk =>
      refine (readConstant_within h).congr hlt ?_
      rintro final' _ us ⟨⟩
      simp only [WrittenValue.read, hk]
    case h_4 | h_5 | h_6 =>
      refine (readNumbers_within h).congr hlt ?_
      rintro final' _ us ⟨⟩
      simp_all only [WrittenValue.read]
    all_goals exact (reads_error h).elim

/-! ## Directives -/

theorem reads_readKind : Reads (readKind final ts) k rest ↔
    ∃ t x, ts = t :: rest ∧ t.kind = .identifier x ∧ k = .ofName x := by
  cases ts with
  | nil => simp [readKind]
  | cons t ts =>
    rw [readKind]
    split
    case h_1 x hx =>
      simp only [reads_ok, Parsed.one]
      constructor
      · rintro ⟨rfl, rfl⟩
        exact ⟨t, x, rfl, hx, rfl⟩
      · rintro ⟨u, y, hu, hy, rfl⟩
        obtain ⟨rfl, rfl⟩ := List.cons.inj hu
        obtain rfl := TokenKind.identifier.inj (hx.symm.trans hy)
        exact ⟨rfl, rfl⟩
    case h_2 hno =>
      simp only [reads_error, false_iff]
      rintro ⟨u, y, hu, hy, -⟩
      obtain ⟨rfl, -⟩ := List.cons.inj hu
      exact hno y hy

theorem readKind_within {k : DirectiveKind} (h : Reads (readKind final ts) k rest) :
    Within readKind ts k rest := by
  cases ts with
  | nil => exact (reads_error h).elim
  | cons t ts =>
    rw [readKind] at h
    split at h
    case h_1 name hk =>
      obtain ⟨rfl, rfl⟩ := reads_ok.mp h
      exact .of_one (onLine_iff.mpr (by simp [hk])) fun final' rest' => by
        simp [readKind, hk, Parsed.one]
    case h_2 => exact (reads_error h).elim

theorem reads_read {line : Nat} {d : Directive} :
    Reads (read final line ts) d rest ↔ ∃ k vs mid written value,
      Reads (readKind final ts) k (vs ++ mid) ∧
        Reads (WrittenValue.read final line (vs ++ mid)) written mid ∧
        k.interpret (lexemes vs) written = .ok value ∧
        d = ⟨k, value, lexemes (mid.takeWhile onLine), line⟩ ∧ rest = mid.dropWhile onLine := by
  have htake : ∀ {us vs mid : List Token}, us = vs ++ mid →
      us.take (us.length - mid.length) = vs := by
    rintro _ vs mid rfl
    rw [List.length_append, Nat.add_sub_cancel, List.take_left]
  rw [read, reads_bind]
  constructor
  · rintro ⟨k, hk, h⟩
    obtain ⟨w, hw, h⟩ := reads_bind.mp h
    obtain ⟨vs, hvs, -⟩ := read_value_within (reads_of_eq hw)
    simp only [htake hvs] at h
    split at h
    case h_1 => exact (reads_error h).elim
    case h_2 value hvalue =>
      obtain ⟨rfl, rfl⟩ := reads_ok.mp h
      exact ⟨k.value, vs, w.rest, w.value, value, hvs ▸ reads_of_eq hk, hvs ▸ reads_of_eq hw, hvalue,
        rfl, rfl⟩
  · rintro ⟨k, vs, mid, written, value, ⟨hlt, hk⟩, ⟨hlt', hw⟩, hvalue, rfl, rfl⟩
    refine ⟨_, hk, reads_bind.mpr ⟨_, hw, ?_⟩⟩
    simp only [htake rfl, hvalue]
    exact reads_ok.mpr ⟨rfl, rfl⟩

/-- The line ends here, or the input does. -/
def EndsLine (ts : List Token) : Prop :=
  ∀ t ∈ ts.head?, ¬ onLine t

theorem endsLine_nil : EndsLine [] := by
  intro t ht
  cases ht

theorem endsLine_dropWhile (ts : List Token) : EndsLine (ts.dropWhile onLine) := by
  induction ts with
  | nil => exact endsLine_nil
  | cons t ts ih =>
    by_cases ht : onLine t
    · rwa [List.dropWhile_cons_of_pos ht]
    · rw [List.dropWhile_cons_of_neg ht]
      rintro _ ⟨⟩
      exact ht

theorem EndsLine.takeWhile (h : EndsLine rest) : rest.takeWhile onLine = [] := by
  cases rest with
  | nil => rfl
  | cons t rest => simp [h t rfl]

theorem EndsLine.takeWhile_append (h : EndsLine rest) (hts : ∀ t ∈ ts, onLine t) :
    (ts ++ rest).takeWhile onLine = ts := by
  rw [List.takeWhile_append_of_pos hts, h.takeWhile, List.append_nil]

theorem EndsLine.dropWhile_append (h : EndsLine rest) (hts : ∀ t ∈ ts, onLine t) :
    (ts ++ rest).dropWhile onLine = rest := by
  rw [List.dropWhile_append_of_pos hts]
  cases rest with
  | nil => rfl
  | cons t rest => simp [h t rfl]

theorem exists_line (ts : List Token) :
    ∃ us rest, ts = us ++ rest ∧ (∀ t ∈ us, onLine t) ∧ EndsLine rest :=
  ⟨_, _, List.takeWhile_append_dropWhile.symm, List.all_eq_true.mp List.all_takeWhile,
    endsLine_dropWhile ts⟩

theorem EndsLine.sameLine (h : EndsLine rest) (h' : EndsLine rest') : SameLine rest rest' :=
  h.takeWhile.trans h'.takeWhile.symm

theorem read_of_endsLine {line : Nat} {d : Directive} (h : Reads (read final line (ts ++ rest)) d rest)
    (hts : ∀ t ∈ ts, onLine t) (hrest : EndsLine rest) (hrest' : EndsLine rest') (final' : Span) :
    Reads (read final' line (ts ++ rest')) d rest' := by
  obtain ⟨k, vs, mid, written, value, hk, hw, hvalue, rfl, hmid⟩ := reads_read.mp h
  obtain ⟨us, hus, honus, hkind⟩ := readKind_within hk
  obtain ⟨vs', hvs, honvs, hval⟩ := read_value_within hw
  obtain rfl := List.append_cancel_right hvs
  obtain ⟨ws, rest₀, rfl, hws, hrest₀⟩ := exists_line mid
  obtain rfl : rest = rest₀ := by rw [hmid, hrest₀.dropWhile_append hws]
  obtain rfl : ts = us ++ (vs ++ ws) := by
    refine List.append_cancel_right (?_ : ts ++ rest = us ++ (vs ++ ws) ++ rest)
    simpa using hus
  have hl : SameLine (ws ++ rest) (ws ++ rest') := (hrest.sameLine hrest').append ws
  rw [List.append_assoc, List.append_assoc]
  refine reads_read.mpr ⟨k, vs, ws ++ rest', written, value, hkind final' _ (hl.append vs),
    hval final' _ hl, hvalue, ?_, (hrest'.dropWhile_append hws).symm⟩
  rw [hrest.takeWhile_append hws, hrest'.takeWhile_append hws]

theorem endsLine_of_read {line : Nat} {d : Directive} (h : Reads (read final line ts) d rest) :
    ∃ us, ts = us ++ rest ∧ (∀ t ∈ us, onLine t) ∧ EndsLine rest := by
  obtain ⟨k, vs, mid, written, value, hk, hw, -, -, rfl⟩ := reads_read.mp h
  obtain ⟨us, hus, honus, -⟩ := readKind_within hk
  obtain ⟨vs', hvs, honvs, -⟩ := read_value_within hw
  obtain rfl := List.append_cancel_right hvs
  obtain ⟨ws, rest, rfl, hws, hrest⟩ := exists_line mid
  rw [hrest.dropWhile_append hws]
  refine ⟨us ++ (vs ++ ws), by simpa using hus, fun t ht => ?_, hrest⟩
  rcases List.mem_append.mp ht with ht | ht
  · exact honus t ht
  · exact (List.mem_append.mp ht).elim (honvs t) (hws t)

/-- A directive takes its line, and reads the same from the line alone. -/
theorem read_iff {line : Nat} {d : Directive} :
    Reads (read final line ts) d rest ↔
      ∃ us, ts = us ++ rest ∧ EndsLine rest ∧ ∃ final', Reads (read final' line us) d [] := by
  constructor
  · intro h
    obtain ⟨us, rfl, hus, hrest⟩ := endsLine_of_read h
    have hline := read_of_endsLine h hus hrest endsLine_nil final
    rw [List.append_nil] at hline
    exact ⟨us, rfl, hrest, final, hline⟩
  · rintro ⟨us, rfl, hrest, final', h⟩
    obtain ⟨vs, rfl, hvs, -⟩ := endsLine_of_read h
    rw [List.append_nil] at h ⊢
    exact read_of_endsLine (by rwa [List.append_nil]) hvs endsLine_nil hrest final

theorem onLine_of_read {line : Nat} {d : Directive} (h : Reads (read final line ts) d []) :
    ∀ t ∈ ts, onLine t := by
  obtain ⟨us, rfl, hus, -⟩ := endsLine_of_read h
  simpa using hus

theorem read_unique {line : Nat} {final' : Span} {d d' : Directive}
    (h : Reads (read final line ts) d []) (h' : Reads (read final' line ts) d' []) : d = d' := by
  have hts := onLine_of_read h
  rw [← List.append_nil ts] at h h'
  exact (Reads.unique (read_of_endsLine h hts endsLine_nil endsLine_nil final') h').1

end Pseudocode.Directive
