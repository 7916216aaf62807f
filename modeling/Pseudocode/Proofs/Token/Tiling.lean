import Mathlib.Data.String.Basic
import Pseudocode.Proofs.Token.Spelling

/-! # Where the tokens of a source stand

The lexemes of the tokens are parts of the source. They come one after the other, with blanks and comments
between them and nothing else, up to the end of the source or to the first character that can neither be
skipped nor begins a token. Lines, columns and bytes are counted along the way.
-/

namespace Pseudocode

open String (utf8Len)

namespace Lexer

/-! ## Places -/

def lineAfter (cs : List Char) : Nat :=
  1 + cs.count '\n'

def columnAfter (cs : List Char) : Nat :=
  1 + (cs.reverse.takeWhile (· ≠ '\n')).length

def placeAfter (cs : List Char) : Position :=
  ⟨lineAfter cs, columnAfter cs, utf8Len cs⟩

theorem next_placeAfter (cs : List Char) (c : Char) :
    (placeAfter cs).next c = placeAfter (cs ++ [c]) := by
  unfold Position.next
  split
  case isTrue hc =>
    subst hc
    simp [placeAfter, lineAfter, columnAfter, Nat.add_assoc]
  case isFalse hc =>
    simp [placeAfter, lineAfter, columnAfter, hc, Nat.add_comm]

theorem after_placeAfter (cs ds : List Char) :
    (placeAfter cs).after ds = placeAfter (cs ++ ds) := by
  induction ds generalizing cs with
  | nil => rw [List.append_nil]; rfl
  | cons d ds ih =>
    have h := ih (cs ++ [d])
    rwa [List.append_assoc, List.singleton_append, ← next_placeAfter] at h

/-- Of two beginnings of a text the one with more bytes goes on from the other. -/
theorem exists_append_of_utf8Len_le {as bs cs ds : List Char} (h : as ++ bs = cs ++ ds)
    (hlen : utf8Len as ≤ utf8Len cs) : ∃ xs, cs = as ++ xs ∧ bs = xs ++ ds := by
  rcases List.append_eq_append_iff.mp h with hxs | ⟨xs, rfl, rfl⟩
  · exact hxs
  · have hxs : xs = [] := by
      rw [← String.utf8Len_eq_zero]
      rw [String.utf8Len_append] at hlen
      omega
    exact ⟨[], by simp [hxs], by simp [hxs]⟩

theorem eq_of_utf8Len_eq {as bs cs ds : List Char} (h : as ++ bs = cs ++ ds)
    (hlen : utf8Len as = utf8Len cs) : as = cs ∧ bs = ds := by
  obtain ⟨xs, rfl, rfl⟩ := exists_append_of_utf8Len_le h hlen.le
  have hxs : xs = [] := by
    rw [← String.utf8Len_eq_zero]
    rw [String.utf8Len_append] at hlen
    omega
  simp [hxs]

/-- Of two parts of a text, the second one of which begins within the first one and goes on over its end,
the first one ends with what the second one begins with. -/
theorem exists_overlap {as ps as' ps' bs bs' : List Char} (h : as ++ ps ++ bs = as' ++ ps' ++ bs')
    (hstart : utf8Len as ≤ utf8Len as') (hwithin : utf8Len as' ≤ utf8Len (as ++ ps))
    (hstop : utf8Len (as ++ ps) < utf8Len (as' ++ ps')) :
    ∃ us ds w ws, ps = us ++ ds ∧ ps' = ds ++ w :: ws ∧ bs = w :: (ws ++ bs') := by
  obtain ⟨us, rfl, hus⟩ :=
    exists_append_of_utf8Len_le (by rwa [List.append_assoc, List.append_assoc] at h) hstart
  rw [List.append_assoc (as ++ us)] at h
  obtain ⟨ds, hds, hps'⟩ := exists_append_of_utf8Len_le h.symm hwithin
  rw [hds, String.utf8Len_append, String.utf8Len_append _ ps'] at hstop
  obtain ⟨ws, rfl, rfl⟩ := exists_append_of_utf8Len_le hps'.symm (by omega)
  rw [List.append_assoc, List.append_cancel_left_eq] at hds
  cases ws with
  | nil => simp at hstop
  | cons w ws => exact ⟨us, ds, w, ws, hds, rfl, rfl⟩

/-- The bytes from `start` to `stop` of the source are `part`, with `before` and `after` around them. -/
structure Slice (source : String) (start stop : Nat) (before part after : List Char) : Prop where
  source : source.toList = before ++ part ++ after
  start : start = utf8Len before
  stop : stop = utf8Len (before ++ part)

/-! ## Blanks and comments -/

/-- The text begins with the directive word, and not with a longer one. -/
def BeginsDirective (cs : List Char) : Prop :=
  ∃ rest, cs = "#CONFIG".toList ++ rest ∧ ∀ c ∈ rest.head?, ¬ Text.isWordChar c

/-- The text `gap`, with `rest` after it, consists of blanks and comments. A comment begins with a `#`
that begins no directive, and goes up to the line break or the end of the source. -/
inductive Gap : (gap rest : List Char) → Prop where
  | nil (rest : List Char) : Gap [] rest
  | blank {c : Char} {gap rest : List Char} :
    Text.isBlank c → Gap gap rest → Gap (c :: gap) rest
  | comment {body gap rest : List Char} :
    ¬ BeginsDirective ('#' :: (body ++ (gap ++ rest))) → '\n' ∉ body →
      (∀ c ∈ (gap ++ rest).head?, c = '\n') → Gap gap rest → Gap ('#' :: (body ++ gap)) rest

def Skippable (source : String) (a b : Nat) : Prop :=
  ∃ before gap after, Slice source a b before gap after ∧ Gap gap after

variable {source : String} {before gap gap' rest cs : List Char} {a b d : Nat} {c : Char}

theorem Gap.append (h : Gap gap (gap' ++ rest)) (h' : Gap gap' rest) : Gap (gap ++ gap') rest := by
  generalize heq : gap' ++ rest = ds at h
  induction h with
  | nil => exact h'
  | blank hc _ ih => exact .blank hc (ih heq)
  | @comment body gap _ hdirective hbody hend _ ih =>
    subst heq
    rw [← List.append_assoc gap] at hdirective hend
    rw [List.cons_append, List.append_assoc]
    exact .comment hdirective hbody hend (ih rfl)

theorem isDirective_iff : isDirective cs ↔ BeginsDirective ('#' :: cs) := by
  rw [isDirective, Bool.and_eq_true, List.isPrefixOf_iff_prefix]
  constructor
  · rintro ⟨⟨rest, rfl⟩, hrest⟩
    refine ⟨rest, rfl, fun c hc => ?_⟩
    rw [List.drop_left] at hrest
    simp_all
  · rintro ⟨rest, heq, hrest⟩
    obtain rfl : cs = directiveTail ++ rest := (List.cons.inj heq).2
    refine ⟨List.prefix_append _ _, ?_⟩
    rw [List.drop_left]
    cases hhead : rest.head? with
    | none => rfl
    | some c => simpa using hrest c hhead

theorem gap_comment (h : ¬ isDirective cs) :
    Gap ('#' :: cs.take (countWhile (· ≠ '\n') cs)) (cs.drop (countWhile (· ≠ '\n') cs)) := by
  rw [take_countWhile, drop_countWhile, ← List.append_nil (cs.takeWhile _)]
  refine .comment ?_ (fun hmem => ?_) (fun c hc => ?_) (.nil _)
  · rw [List.nil_append, List.takeWhile_append_dropWhile, ← isDirective_iff]
    exact h
  · simpa using List.all_eq_true.mp List.all_takeWhile _ hmem
  · have hhead := List.head?_dropWhile_not (· ≠ '\n') cs
    rw [List.nil_append] at hc
    rw [Option.mem_def.mp hc] at hhead
    simpa using hhead

theorem skippable_refl (h : source.toList = before ++ rest) :
    Skippable source (utf8Len before) (utf8Len before) :=
  ⟨before, [], rest, ⟨by rw [List.append_nil, h], rfl, by rw [List.append_nil]⟩, .nil rest⟩

theorem Skippable.trans (h : Skippable source a b) (h' : Skippable source b d) :
    Skippable source a d := by
  obtain ⟨before, gap, after, ⟨hsource, rfl, rfl⟩, hgap⟩ := h
  obtain ⟨before', gap', after', ⟨hsource', hb, rfl⟩, hgap'⟩ := h'
  rw [hsource, List.append_assoc before'] at hsource'
  obtain ⟨rfl, rfl⟩ := eq_of_utf8Len_eq hsource' hb
  exact ⟨before, gap ++ gap', after', ⟨by rw [hsource]; simp, rfl, by simp⟩, hgap.append hgap'⟩

theorem Skippable.of_gap (h : source.toList = before ++ gap ++ rest) (hgap : Gap gap rest) :
    Skippable source (utf8Len before) (utf8Len (before ++ gap)) :=
  ⟨before, gap, rest, ⟨h, rfl, rfl⟩, hgap⟩

/-! ## Tokens and what is between them -/

/-- The token stands in the source at the place that its span gives. -/
structure Stands (source : String) (t : Token) (before after : List Char) : Prop where
  slice : Slice source t.span.start t.span.stop before t.lexeme.toList after
  line : t.span.line = lineAfter before
  column : t.span.column = columnAfter before

/-- From the byte `a` to the byte `b` of the source the tokens stand one after the other, with blanks and
comments around them and nothing else. -/
inductive Tiles (source : String) : (a : Nat) → List Token → (b : Nat) → Prop where
  | last {a b : Nat} : Skippable source a b → Tiles source a [] b
  | token {a b : Nat} {t : Token} {ts : List Token} {before after : List Char} :
    Skippable source a t.span.start → Stands source t before after → t.span.start < t.span.stop →
      Tiles source t.span.stop ts b → Tiles source a (t :: ts) b

theorem Tiles.skip {ts : List Token} (h : Tiles source b ts d) (hab : Skippable source a b) :
    Tiles source a ts d := by
  cases h with
  | last hbd => exact .last (hab.trans hbd)
  | token hb ht hlt hts => exact .token (hab.trans hb) ht hlt hts

theorem stop_tokenAt (k : TokenKind) :
    (tokenAt (placeAfter before) k cs).span.stop = utf8Len (before ++ cs) := by
  rw [tokenAt, after_placeAfter]
  rfl

theorem start_lt_stop_tokenAt (k : TokenKind) :
    (tokenAt (placeAfter before) k (c :: cs)).span.start <
      (tokenAt (placeAfter before) k (c :: cs)).span.stop := by
  have hc := c.utf8Size_pos
  rw [stop_tokenAt, String.utf8Len_append, String.utf8Len_cons]
  change utf8Len before < _
  omega

theorem stands_tokenAt (k : TokenKind) (h : source.toList = before ++ cs ++ rest) :
    Stands source (tokenAt (placeAfter before) k cs) before rest := by
  refine ⟨?_, rfl, rfl⟩
  rw [tokenAt, after_placeAfter, String.toList_ofList]
  exact ⟨h, rfl, rfl⟩

/-- Nothing can be skipped and no token can be read where `c` stands with `cs` after it. -/
structure Stuck (c : Char) (cs : List Char) (fault : Fault) : Prop where
  not_blank : ¬ Text.isBlank c
  not_comment : ¬ (c = '#' && !isDirective cs)
  fault : front c cs = .error fault

/-- What a scan of the source gives that has read the tokens `ts` up to the byte `n`. -/
inductive Ends (source : String) (ts : List Token) : Nat → List Token × Option LexError → Prop where
  | endOfInput : Ends source ts (utf8Len source.toList)
      (ts ++ [tokenAt (placeAfter source.toList) .endOfInput []], none)
  | fault {before cs : List Char} {c : Char} {fault : Fault} :
    source.toList = before ++ c :: cs → Stuck c cs fault →
      Ends source ts (utf8Len before) (ts, some (fault.toError (placeAfter before) c cs))

theorem Ends.cons {ts us : List Token} {e : Option LexError} {n : Nat} (h : Ends source ts n (us, e))
    (t : Token) : Ends source (t :: ts) n (t :: us, e) := by
  cases h with
  | endOfInput => exact .endOfInput
  | fault hsource hstuck => exact .fault hsource hstuck

theorem split_source (h : source.toList = before ++ c :: cs) (n : Nat) :
    source.toList = before ++ (c :: cs.take n) ++ cs.drop n := by
  rw [h, List.append_assoc, List.cons_append, List.take_append_drop]

/-- A scan tiles what is left of the source. -/
theorem exists_tiles (before cs : List Char) (h : source.toList = before ++ cs) :
    ∃ ts n, Tiles source (utf8Len before) ts n ∧ (∀ t ∈ ts, t.kind ≠ .endOfInput) ∧
      Ends source ts n (scan (placeAfter before) cs) := by
  generalize hp : placeAfter before = p
  fun_induction scan p cs generalizing before with
  | case1 p =>
    subst hp
    rw [List.append_nil] at h
    subst h
    exact ⟨[], _, .last (skippable_refl (List.append_nil _).symm), List.forall_mem_nil _, .endOfInput⟩
  | case2 p c cs hb ih =>
    subst hp
    have hsplit : source.toList = before ++ [c] ++ cs := by rw [h, List.append_cons]
    obtain ⟨ts, n, htiles, hts, hends⟩ := ih (before ++ [c]) hsplit (next_placeAfter before c).symm
    exact ⟨ts, n, htiles.skip (.of_gap hsplit (.blank hb (.nil cs))), hts, hends⟩
  | case3 p c cs hb hc n ih =>
    subst hp
    obtain ⟨rfl, hdirective⟩ : c = '#' ∧ ¬ isDirective cs := by simpa using hc
    have hsplit := split_source h n
    obtain ⟨ts, m, htiles, hts, hends⟩ := ih _ hsplit (after_placeAfter before ('#' :: cs.take n)).symm
    exact ⟨ts, m, htiles.skip (.of_gap hsplit (gap_comment hdirective)), hts, hends⟩
  | case4 p c cs hb hc fault hf =>
    subst hp
    exact ⟨[], _, .last (skippable_refl h), List.forall_mem_nil _, .fault h ⟨hb, hc, hf⟩⟩
  | case5 p c cs hb hc k n hf ts e hts ih =>
    subst hp
    have hsplit := split_source h n
    obtain ⟨us, m, htiles, hus, hends⟩ := ih _ hsplit (after_placeAfter before (c :: cs.take n)).symm
    rw [← stop_tokenAt k] at htiles
    rw [hts] at hends
    refine ⟨tokenAt (placeAfter before) k (c :: cs.take n) :: us, m, ?_, ?_, hends.cons _⟩
    · exact .token (skippable_refl h) (stands_tokenAt k hsplit) (start_lt_stop_tokenAt k) htiles
    · rw [List.forall_mem_cons]
      exact ⟨front_ne_endOfInput hf, hus⟩

/-! ## What the tokens leave -/

theorem Skippable.le (h : Skippable source a b) : a ≤ b := by
  obtain ⟨before, gap, after, ⟨-, rfl, rfl⟩, -⟩ := h
  rw [String.utf8Len_append]
  exact Nat.le_add_right _ _

def Covered (ts : List Token) (n : Nat) : Prop :=
  ∃ t ∈ ts, t.span.start ≤ n ∧ n < t.span.stop

/-- The byte `n` of the source belongs to blanks and comments that no token reaches into. -/
def Skipped (source : String) (ts : List Token) (n : Nat) : Prop :=
  ∃ a b, a ≤ n ∧ n < b ∧ Skippable source a b ∧ ∀ t ∈ ts, t.span.stop ≤ a ∨ b ≤ t.span.start

/-- The byte `n` of the source is the first one that belongs neither to a token nor to what can be
skipped. -/
structure FirstLeft (source : String) (ts : List Token) (n : Nat) : Prop where
  not_covered : ¬ Covered ts n
  not_skipped : ¬ Skipped source ts n
  first : ∀ m < n, Covered ts m ∨ Skipped source ts m

namespace Tiles

variable {ts : List Token} {n : Nat}

theorem start_le (h : Tiles source a ts b) : ∀ t ∈ ts, a ≤ t.span.start := by
  induction h with
  | last => exact nofun
  | token hb _ hlt _ ih =>
    rw [List.forall_mem_cons]
    have hle := hb.le
    refine ⟨hle, fun u hu => ?_⟩
    have hu := ih u hu
    omega

theorem stop_le (h : Tiles source a ts b) : a ≤ b ∧ ∀ t ∈ ts, t.span.stop ≤ b := by
  induction h with
  | last hab => exact ⟨hab.le, nofun⟩
  | token hb _ hlt _ ih =>
    have hle := hb.le
    rw [List.forall_mem_cons]
    exact ⟨by omega, ih⟩

theorem pairwise (h : Tiles source a ts b) :
    ts.Pairwise fun t u => t.span.stop ≤ u.span.start := by
  induction h with
  | last => exact .nil
  | token _ _ _ hts ih => exact .cons hts.start_le ih

theorem covered_or_skippable (h : Tiles source a ts b) (ha : a ≤ n) (hb : n < b) :
    Covered ts n ∨ ∃ x y, a ≤ x ∧ x ≤ n ∧ n < y ∧ Skippable source x y ∧
      ∀ t ∈ ts, t.span.stop ≤ x ∨ y ≤ t.span.start := by
  induction h with
  | last hab => exact .inr ⟨_, _, Nat.le_refl _, ha, hb, hab, nofun⟩
  | @token a b t ts _ _ hat _ hlt hts ih =>
    rcases Nat.lt_or_ge n t.span.start with hn | hn
    · refine .inr ⟨a, t.span.start, Nat.le_refl _, ha, hn, hat, ?_⟩
      rw [List.forall_mem_cons]
      refine ⟨.inr (Nat.le_refl _), fun u hu => .inr ?_⟩
      have hu := hts.start_le u hu
      omega
    · rcases Nat.lt_or_ge n t.span.stop with hn' | hn'
      · exact .inl ⟨t, List.mem_cons_self, hn, hn'⟩
      · rcases ih hn' hb with ⟨u, hu, hcovered⟩ | ⟨x, y, hx, hxn, hny, hskip, hdisjoint⟩
        · exact .inl ⟨u, List.mem_cons_of_mem t hu, hcovered⟩
        · have hle := hat.le
          exact .inr ⟨x, y, by omega, hxn, hny, hskip, List.forall_mem_cons.mpr ⟨.inl hx, hdisjoint⟩⟩

theorem exists_skippable (h : Tiles source a ts b) :
    ∃ x, Skippable source x b ∧ (x = a ∨ ∃ t ∈ ts, x = t.span.stop ∧ t.span.start < x) := by
  induction h with
  | last hab => exact ⟨_, hab, .inl rfl⟩
  | @token a b t ts _ _ _ _ hlt _ ih =>
    obtain ⟨x, hx, rfl | ⟨u, hu, rfl, hlt'⟩⟩ := ih
    · exact ⟨_, hx, .inr ⟨t, List.mem_cons_self, rfl, hlt⟩⟩
    · exact ⟨_, hx, .inr ⟨u, List.mem_cons_of_mem t hu, rfl, hlt'⟩⟩

end Tiles

theorem Stuck.ne_newline {fault : Fault} (h : Stuck c cs fault) : c ≠ '\n' := by
  rintro rfl
  exact nomatch h.fault

theorem Gap.of_blank (h : Gap (c :: gap) rest) (hc : Text.isBlank c) : Gap gap rest := by
  cases h with
  | blank _ h => exact h
  | comment => exact absurd hc (by decide)

theorem Gap.blanks (h : Gap gap (c :: cs)) (hc : c ≠ '\n') : ∀ d ∈ gap, Text.isBlank d := by
  generalize heq : c :: cs = rest at h
  induction h with
  | nil => exact nofun
  | blank hb _ ih => exact List.forall_mem_cons.mpr ⟨hb, ih heq⟩
  | @comment body gap _ _ _ hend _ ih =>
    subst heq
    cases gap with
    | nil => exact absurd (hend c rfl) hc
    | cons d gap =>
      obtain rfl := hend d rfl
      exact absurd (ih rfl '\n' List.mem_cons_self) (by decide)

/-- No gap goes on over a place where a scan gets stuck. -/
theorem Stuck.not_gap {fault : Fault} {ds : List Char} (h : Stuck c (cs ++ rest) fault)
    (hblank : ∀ d ∈ ds, Text.isBlank d) : ¬ Gap (ds ++ c :: cs) rest := by
  induction ds with
  | nil =>
    intro hgap
    cases hgap with
    | blank hb _ => exact h.not_blank hb
    | comment hdirective _ _ _ =>
      apply h.not_comment
      rw [← List.append_assoc, ← isDirective_iff] at hdirective
      simpa using hdirective
  | cons d ds ih =>
    rw [List.forall_mem_cons] at hblank
    exact fun hgap => ih hblank.2 (hgap.of_blank hblank.1)

theorem Stuck.not_skipped {fault : Fault} {ts : List Token} (h : Stuck c cs fault)
    (hsource : source.toList = before ++ c :: cs) (htiles : Tiles source 0 ts (utf8Len before)) :
    ¬ Skipped source ts (utf8Len before) := by
  rintro ⟨x, y, hx, hy, ⟨as, gap, after, ⟨hgapsource, rfl, rfl⟩, hgap⟩, hdisjoint⟩
  obtain ⟨l, ⟨as', gap', after', ⟨hlastsource, rfl, hlaststop⟩, hlast⟩, hl⟩ := htiles.exists_skippable
  have hle : utf8Len as' ≤ utf8Len as := by
    rcases hl with hzero | ⟨t, ht, hstop, hlt⟩
    · omega
    · have hside := hdisjoint t ht
      have hstops := htiles.stop_le.2 t ht
      omega
  -- The text from the last token up to the character is `gap'`, and `gap` begins within it.
  rw [hsource] at hlastsource
  obtain ⟨rfl, rfl⟩ := eq_of_utf8Len_eq hlastsource hlaststop
  obtain ⟨us, ds, w, ws, rfl, rfl, hw⟩ := exists_overlap (hsource.symm.trans hgapsource) hle hx hy
  obtain ⟨rfl, rfl⟩ := List.cons.inj hw
  have hblanks := hlast.blanks h.ne_newline
  exact h.not_gap (fun d hd => hblanks d (List.mem_append_right us hd)) hgap

theorem Stuck.firstLeft {fault : Fault} {ts : List Token} (h : Stuck c cs fault)
    (hsource : source.toList = before ++ c :: cs) (htiles : Tiles source 0 ts (utf8Len before)) :
    FirstLeft source ts (utf8Len before) where
  not_covered := by
    rintro ⟨t, ht, -, hlt⟩
    have hle := htiles.stop_le.2 t ht
    omega
  not_skipped := h.not_skipped hsource htiles
  first m hm := by
    rcases htiles.covered_or_skippable (Nat.zero_le m) hm with hcovered | ⟨x, y, -, hskipped⟩
    · exact .inl hcovered
    · exact .inr ⟨x, y, hskipped⟩

theorem Fault.line_toError (fault : Fault) (p : Position) (c : Char) (cs : List Char) :
    (fault.toError p c cs).line = p.line := by
  cases fault <;> rfl

theorem Fault.column_toError (fault : Fault) (p : Position) (c : Char) (cs : List Char) :
    (fault.toError p c cs).column = p.column := by
  cases fault <;> rfl

end Lexer

open Lexer in
/-- The tokens before the end of input or before an error tile the source. If there is no error, they do
so up to the end, where the end of input stands, and else up to the first byte that belongs neither to a
token nor to what can be skipped, and there the error is reported. -/
theorem Token.scan_tiles (source : String) : ∃ ts n,
    Tiles source 0 ts n ∧ (ts.Pairwise fun t u => t.span.stop ≤ u.span.start) ∧
      (∀ t ∈ ts, t.kind ≠ .endOfInput) ∧
      ((∃ eof, Token.scan source = (ts ++ [eof], none) ∧ n = source.utf8ByteSize ∧
          eof.kind = .endOfInput ∧ eof.lexeme = "" ∧ Stands source eof source.toList [] ∧
          eof.span.start = n ∧ eof.span.stop = n) ∨
        ∃ e before c after, Token.scan source = (ts, some e) ∧
          source.toList = before ++ c :: after ∧ n = utf8Len before ∧ FirstLeft source ts n ∧
          e.line = lineAfter before ∧ e.column = columnAfter before) := by
  obtain ⟨ts, n, htiles, hts, hends⟩ := @exists_tiles source [] source.toList rfl
  refine ⟨ts, n, htiles, htiles.pairwise, hts, ?_⟩
  have hscan : Token.scan source = Lexer.scan (placeAfter []) source.toList := rfl
  rw [← hscan] at hends
  generalize Token.scan source = result at hends
  cases hends with
  | endOfInput =>
    have hsize := source.utf8Len_toList
    have hsplit : source.toList = source.toList ++ [] ++ [] := by simp
    exact .inl ⟨_, rfl, hsize, rfl, rfl, stands_tokenAt _ hsplit, rfl, rfl⟩
  | @fault before cs c fault hsource hstuck =>
    refine .inr ⟨_, before, c, cs, rfl, hsource, rfl, hstuck.firstLeft hsource htiles, ?_, ?_⟩
    · exact fault.line_toError _ c cs
    · exact fault.column_toError _ c cs

end Pseudocode
