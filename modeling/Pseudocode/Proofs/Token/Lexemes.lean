import Pseudocode.Proofs.Decimal.Numeral
import Pseudocode.Proofs.Token.Spelling

/-! # Lexemes inside a text

The text of a token stands for that token wherever a blank, a closing parenthesis or a line break
follows. Texts with this property can be put together.
-/

namespace Pseudocode.Lexer

/-- What may stand after a lexeme: nothing, or a character that goes on with none. -/
def Boundary (rest : List Char) : Prop :=
  ∀ c ∈ rest.head?, c = ' ' ∨ c = ')' ∨ c = '\n'

/-- The text stands for tokens of the given kinds wherever a boundary follows. -/
def Writes (cs : List Char) (ks : List TokenKind) : Prop :=
  ∀ rest ks', Boundary rest → Spells rest ks' → Spells (cs ++ rest) (ks ++ ks')

variable {c : Char} {cs cs' rest : List Char} {k : TokenKind} {ks ks' : List TokenKind}

theorem boundary_nil : Boundary [] := by
  rintro _ ⟨⟩

theorem boundary_cons (h : c = ' ' ∨ c = ')' ∨ c = '\n') : Boundary (c :: rest) := by
  rintro _ ⟨⟩
  exact h

theorem Boundary.cases (h : Boundary rest) :
    rest = [] ∨ ∃ cs, rest = ' ' :: cs ∨ rest = ')' :: cs ∨ rest = '\n' :: cs := by
  cases rest with
  | nil => exact .inl rfl
  | cons c cs => exact .inr ⟨cs, by simpa using h c rfl⟩

theorem Boundary.ne_quote (h : Boundary rest) : ∀ c ∈ rest.head?, c ≠ '"' := by
  rintro c hc rfl
  simpa using h '"' hc

theorem Spells.blanks (h : Spells rest ks) (n : Nat) : Spells (.replicate n ' ' ++ rest) ks := by
  induction n with
  | zero => exact h
  | succ n ih =>
    rw [List.replicate_succ, List.cons_append]
    exact .blank rfl ih

theorem spells_of_front {k : TokenKind} (cs : List Char) (hblank : ¬ Text.isBlank c)
    (hhash : c ≠ '#') (hfront : front c (cs ++ rest) = .ok (k, cs.length)) (hs : Spells rest ks) :
    Spells (c :: (cs ++ rest)) (k :: ks) := by
  refine .token hblank (by simp [hhash]) hfront ?_
  rwa [List.drop_left]

theorem Spells.newline (h : Spells rest ks) : Spells ('\n' :: rest) (.newline :: ks) :=
  spells_of_front [] (by decide) (by decide) rfl h

theorem Spells.rightParen (h : Spells rest ks) : Spells (')' :: rest) (.symbol .rightParen :: ks) :=
  spells_of_front [] (by decide) (by decide) rfl h

namespace Writes

theorem spells (h : Writes cs ks) : Spells cs (ks ++ [.endOfInput]) := by
  have := h [] [.endOfInput] (by simp [Boundary]) .endOfInput
  rwa [List.append_nil] at this

theorem blank (h : Writes cs ks) (h' : Writes cs' ks') : Writes (cs ++ ' ' :: cs') (ks ++ ks') := by
  intro rest ks'' hb hs
  rw [List.append_assoc, List.append_assoc]
  exact h _ _ (boundary_cons (.inl rfl)) (.blank rfl (h' _ _ hb hs))

theorem parens (h : Writes cs ks) :
    Writes ('(' :: cs ++ [')']) (.symbol .leftParen :: ks ++ [.symbol .rightParen]) := by
  intro rest ks' hb hs
  simp only [List.cons_append, List.append_assoc, List.nil_append]
  exact spells_of_front [] (by decide) (by decide) rfl
    (h _ _ (boundary_cons (.inr (.inl rfl))) hs.rightParen)

theorem minus (h : Writes cs ks) : Writes ('-' :: cs) (.symbol .minus :: ks) := by
  intro rest ks' hb hs
  exact spells_of_front [] (by decide) (by decide) rfl (h _ _ hb hs)

theorem line (h : Writes cs ks) (hs : Spells rest ks') (n : Nat) :
    Spells (.replicate n ' ' ++ (cs ++ '\n' :: rest)) (ks ++ .newline :: ks') :=
  (h _ _ (boundary_cons (.inr (.inr rfl))) hs.newline).blanks n

end Writes

/-! ## Ends of lexemes -/

theorem countWhile_eq_length {p : Char → Bool} (h : ∀ c ∈ cs, p c) (hr : ∀ c ∈ rest.head?, ¬ p c) :
    countWhile p (cs ++ rest) = cs.length := by
  have hrest : rest.takeWhile p = [] := by
    cases rest with
    | nil => rfl
    | cons d ds => exact List.takeWhile_cons_of_neg (hr d rfl)
  rw [countWhile, List.takeWhile_append_of_pos h, hrest, List.append_nil]

theorem Boundary.not {p : Char → Bool} (h : Boundary rest)
    (hp : p ' ' = false ∧ p ')' = false ∧ p '\n' = false) : ∀ c ∈ rest.head?, ¬ p c := by
  intro c hc
  rcases h c hc with rfl | rfl | rfl <;> simp [hp]

theorem fractionLength_of_boundary (hb : Boundary rest) : fractionLength rest = 0 := by
  unfold fractionLength
  split
  case h_1 cs =>
    obtain hd | hd | hd := hb '.' rfl <;> cases hd
  case h_2 => rfl

def Apart : TokenKind → List Char → Prop
  | .integer _, rest => (∀ c ∈ rest.head?, ¬ c.isDigit) ∧ fractionLength rest = 0
  | .decimal _, rest => ∀ c ∈ rest.head?, ¬ c.isDigit
  | .text _, rest => ∀ c ∈ rest.head?, c ≠ '"'
  | .keyword _, rest | .identifier _, rest | .directive, rest =>
    ∀ c ∈ rest.head?, ¬ Text.isWordChar c
  | .symbol .less, rest => ∀ c ∈ rest.head?, c ≠ '=' ∧ c ≠ '>'
  | .symbol .greater, rest => ∀ c ∈ rest.head?, c ≠ '='
  | _, _ => True

theorem apart_of_boundary (h : Boundary rest) (k : TokenKind) : Apart k rest := by
  cases k with
  | integer n => exact ⟨h.not (by decide), fractionLength_of_boundary h⟩
  | decimal d => exact h.not (by decide)
  | text s => exact h.ne_quote
  | keyword w => exact h.not (by decide)
  | identifier x => exact h.not (by decide)
  | directive => exact h.not (by decide)
  | symbol s =>
    cases s with
    | less =>
      intro c hc
      rcases h c hc with rfl | rfl | rfl <;> decide
    | greater =>
      intro c hc
      rcases h c hc with rfl | rfl | rfl <;> decide
    | _ => trivial
  | newline => trivial
  | endOfInput => trivial

/-! ## Words -/

theorem isDigit_iff : c.isDigit ↔ 48 ≤ c.toNat ∧ c.toNat ≤ 57 := by
  simp only [Char.isDigit, Bool.and_eq_true, decide_eq_true_eq, UInt32.le_iff_toNat_le]
  rfl

theorem not_isDigit_of_isLetter (h : Text.isLetter c) : ¬ c.isDigit := by
  rw [isDigit_iff]
  rintro ⟨hl, hu⟩
  rw [Text.isLetter, if_pos (by omega)] at h
  simp only [Char.isAlpha, Char.isUpper, Char.isLower, Bool.or_eq_true, Bool.and_eq_true,
    decide_eq_true_eq, UInt32.le_iff_toNat_le] at h
  have hv : c.val.toNat = c.toNat := rfl
  have hA : 'A'.val.toNat = 65 := rfl
  have ha : 'a'.val.toNat = 97 := rfl
  omega

theorem ne_of_isLetter {d : Char} (h : Text.isLetter c) (hd : Text.isLetter d = false) : c ≠ d := by
  rintro rfl
  rw [h] at hd
  cases hd

theorem front_of_isLetter (h : Text.isLetter c) (cs : List Char) :
    front c cs = .ok (word c cs) := by
  rw [front, if_neg (not_isDigit_of_isLetter h), if_neg (ne_of_isLetter h (by decide)), if_pos h]

theorem not_isBlank_of_isLetter (h : Text.isLetter c) : ¬ Text.isBlank c := by
  simp only [Text.isBlank, Bool.or_eq_true, beq_iff_eq, not_or]
  exact ⟨⟨ne_of_isLetter h (by decide), ne_of_isLetter h (by decide)⟩, ne_of_isLetter h (by decide)⟩

def wordKind (name : String) : TokenKind :=
  match Keyword.ofWord? name with
  | some k => .keyword k
  | none => .identifier name

theorem writes_word (h : Text.isWord cs) : Writes cs [wordKind (.ofList cs)] := by
  intro rest ks' hb hs
  cases cs with
  | nil => cases h
  | cons c cs =>
    obtain ⟨hc, hcs⟩ := Bool.and_eq_true_iff.1 h
    have hlength : countWhile Text.isWordChar (cs ++ rest) = cs.length :=
      countWhile_eq_length (List.all_eq_true.1 hcs) (hb.not (by decide))
    refine spells_of_front cs (not_isBlank_of_isLetter hc) (ne_of_isLetter hc (by decide)) ?_ hs
    rw [front_of_isLetter hc, word, hlength, List.take_left]
    rfl

/-! ## Numbers -/

theorem not_isBlank_of_isDigit (h : c.isDigit) : ¬ Text.isBlank c := by
  simp only [Text.isBlank, Bool.or_eq_true, beq_iff_eq, not_or]
  refine ⟨⟨?_, ?_⟩, ?_⟩ <;> rintro rfl <;> cases h

/-- The characters that go on with the digit `c` in the lexeme of a number. -/
inductive Numeral (c : Char) : List Char → TokenKind → Prop where
  | integer {cs : List Char} {n : Int64} : (∀ d ∈ cs, d.isDigit) →
    Decimal.int64? (Decimal.digitsValue (c :: cs)) = some n → Numeral c cs (.integer n)
  | decimal {ds fs : List Char} {x : Float} : (∀ d ∈ ds, d.isDigit) → (∀ d ∈ fs, d.isDigit) →
    fs ≠ [] → Decimal.parseFloat? (c :: (ds ++ '.' :: fs)) = some x →
      Numeral c (ds ++ '.' :: fs) (.decimal x)

theorem Numeral.number (h : Numeral c cs k) (hr : Apart k rest) :
    number c (cs ++ rest) = .ok (k, cs.length) := by
  cases h with
  | @integer _ n hcs hn =>
    have hwhole : countWhile Char.isDigit (cs ++ rest) = cs.length := countWhile_eq_length hcs hr.1
    simp only [Lexer.number, hwhole, List.drop_left, hr.2, Nat.add_zero, if_true, List.take_left, hn]
  | @decimal ds fs x hds hfs hne hx =>
    have hwhole : countWhile Char.isDigit (ds ++ '.' :: fs ++ rest) = ds.length := by
      rw [List.append_assoc]
      exact countWhile_eq_length hds (by simp)
    have hcount : countWhile Char.isDigit (fs ++ rest) = fs.length := countWhile_eq_length hfs hr
    have hpos : fs.length ≠ 0 := (List.length_pos_of_ne_nil hne).ne'
    have hdrop : (ds ++ '.' :: fs ++ rest).drop ds.length = '.' :: (fs ++ rest) := by
      rw [List.append_assoc, List.drop_left, List.cons_append]
    have hfraction : fractionLength ('.' :: (fs ++ rest)) = fs.length + 1 := by
      rw [fractionLength, hcount, if_neg hpos]
    have hlength : ds.length + (fs.length + 1) = (ds ++ '.' :: fs).length := by simp
    simp only [Lexer.number, hwhole, hdrop, hfraction, hlength, List.take_left, hx]
    rw [if_neg (Nat.succ_ne_zero _)]

theorem exists_numeral_of_digits {i : Int64} (hne : cs ≠ []) (hdigits : ∀ c ∈ cs, c.isDigit)
    (hi : Decimal.int64? (Decimal.digitsValue cs) = some i) :
    ∃ c ds, cs = c :: ds ∧ c.isDigit ∧ Numeral c ds (.integer i) := by
  obtain ⟨c, ds, rfl⟩ := List.exists_cons_of_ne_nil hne
  obtain ⟨hc, hds⟩ := List.forall_mem_cons.mp hdigits
  exact ⟨c, ds, rfl, hc, .integer hds hi⟩

theorem exists_numeral_toDigits {n : Nat} {i : Int64} (h : i.toInt = n) :
    ∃ c cs, Nat.toDigits 10 n = c :: cs ∧ c.isDigit ∧ Numeral c cs (.integer i) :=
  exists_numeral_of_digits Nat.toDigits_ne_nil (fun _ => Decimal.isDigit_of_mem_toDigits)
    (by rw [Decimal.digitsValue_toDigits, Decimal.int64?_eq_some_iff.mpr h])

theorem exists_numeral_of_pointed {whole fraction : List Char} {x : Float}
    (h : Decimal.Pointed whole fraction)
    (hx : Decimal.parseFloat? (whole ++ '.' :: fraction) = some x) :
    ∃ c cs, whole ++ '.' :: fraction = c :: cs ∧ c.isDigit ∧ Numeral c cs (.decimal x) := by
  obtain ⟨c, cs, rfl⟩ := List.exists_cons_of_ne_nil h.whole_ne_nil
  obtain ⟨hc, hcs⟩ := List.forall_mem_cons.mp h.isDigit_of_mem_whole
  exact ⟨c, _, rfl, hc, .decimal hcs h.isDigit_of_mem_fraction h.fraction_ne_nil hx⟩

theorem Numeral.writes (hc : c.isDigit) (h : Numeral c cs k) : Writes (c :: cs) [k] := by
  intro rest ks' hb hs
  refine spells_of_front cs (not_isBlank_of_isDigit hc) (by rintro rfl; cases hc) ?_ hs
  rw [front, if_pos hc, h.number (apart_of_boundary hb k)]

theorem writes_integer {n : Int64} (hn : 0 ≤ n.toInt) :
    Writes (toString n.toInt).toList [.integer n] := by
  obtain ⟨m, hm⟩ := Int.eq_ofNat_of_zero_le hn
  obtain ⟨c, cs, hcs, hc, hnumeral⟩ := exists_numeral_toDigits hm
  have htext : (toString n.toInt).toList = c :: cs := by
    rw [hm, ← hcs]
    exact Nat.toList_repr
  rw [htext]
  exact hnumeral.writes hc

theorem writes_pointed {whole fraction : List Char} {x : Float} (h : Decimal.Pointed whole fraction)
    (hx : Decimal.parseFloat? (whole ++ '.' :: fraction) = some x) :
    Writes (whole ++ '.' :: fraction) [.decimal x] := by
  obtain ⟨c, cs, hcs, hc, hnumeral⟩ := exists_numeral_of_pointed h hx
  rw [hcs]
  exact hnumeral.writes hc

theorem writes_decimal {d : Float} {q : Rat} (hd : Decimal.denote d = .finite false q) :
    Writes (Decimal.Layout.literal.render d).toList [.decimal d] := by
  obtain ⟨whole, fraction, hpointed, htext, hvalue⟩ := Decimal.render_literal hd
  rw [htext, String.toList_ofList]
  exact writes_pointed hpointed hvalue

/-! ## Texts and marks -/

theorem textBody_doubleQuotes (h : '\n' ∉ cs) (hr : ∀ c ∈ rest.head?, c ≠ '"') :
    textBody (Text.doubleQuotes cs ++ '"' :: rest) =
      some (cs, (Text.doubleQuotes cs).length + 1) := by
  induction cs with
  | nil =>
    cases rest with
    | nil => rfl
    | cons c rest => simp [Text.doubleQuotes, textBody, hr c rfl]
  | cons c cs ih =>
    have hc : c ≠ '\n' := fun heq => h (heq ▸ List.mem_cons_self)
    have hcs := ih fun hmem => h (List.mem_cons_of_mem c hmem)
    rw [Text.doubleQuotes]
    split
    case isTrue hq =>
      subst hq
      simp only [List.cons_append, textBody, hcs, Option.map_some, List.length_cons]
    case isFalse hq =>
      rw [List.cons_append, textBody, hcs, Option.map_some, List.length_cons]
      · exact fun _ heq _ => hq heq
      · exact hq
      · exact hc

theorem writes_text {s : String} (h : '\n' ∉ s.toList) :
    Writes (Text.quote s).toList [.text s] := by
  intro rest ks' hb hs
  rw [Text.quote, String.toList_ofList]
  refine spells_of_front (Text.doubleQuotes s.toList ++ ['"']) (by decide) (by decide) ?_ hs
  have hbody := textBody_doubleQuotes h hb.ne_quote
  rw [← List.singleton_append, ← List.append_assoc] at hbody
  rw [front, if_neg (by decide), if_pos rfl, text, hbody, List.length_append]
  simp only [String.ofList_toList, List.length_singleton]

theorem writes_mark {k : TokenKind}
    (hc : c.isDigit = false ∧ c ≠ '"' ∧ Text.isLetter c = false ∧ c ≠ '#' ∧ Text.isBlank c = false)
    (h : ∀ rest, Boundary rest → symbol? c (cs ++ rest) = some (k, cs.length)) :
    Writes (c :: cs) [k] := by
  intro rest ks' hb hs
  obtain ⟨hdigit, hquote, hletter, hhash, hblank⟩ := hc
  refine spells_of_front cs (by rw [hblank]; decide) hhash ?_ hs
  rw [front, hdigit, hletter, if_neg (by decide), if_neg hquote, if_neg (by decide), if_neg hhash,
    h rest hb]

/-! ## Tokens that were read -/

/-- What reading a token makes sure of, unless it is a decimal that is infinite. -/
def Plain : TokenKind → Prop
  | .identifier x => Text.isWord x.toList ∧ Keyword.ofWord? x = none
  | .integer n => 0 ≤ n.toInt
  | .decimal d => ∃ q, Decimal.denote d = .finite false q
  | .text s => '\n' ∉ s.toList
  | _ => True

theorem not_mem_of_textBody {body : List Char} {n : Nat} (h : textBody cs = some (body, n)) :
    '\n' ∉ body := by
  fun_induction textBody cs generalizing body n with
  | case1 cs ih =>
    obtain ⟨⟨b, m⟩, hb, heq⟩ := Option.map_eq_some_iff.1 h
    obtain ⟨rfl, -⟩ := Prod.mk.inj heq
    simpa using ih hb
  | case2 cs h' =>
    obtain ⟨rfl, -⟩ := Prod.mk.inj (Option.some.inj h)
    exact List.not_mem_nil
  | case3 => cases h
  | case4 => cases h
  | case5 c cs hqq hq hn ih =>
    obtain ⟨⟨b, m⟩, hb, heq⟩ := Option.map_eq_some_iff.1 h
    obtain ⟨rfl, -⟩ := Prod.mk.inj heq
    rw [List.mem_cons, not_or]
    exact ⟨fun heq => hn heq.symm, ih hb⟩

theorem all_take_countWhile {p : Char → Bool} (cs : List Char) :
    (cs.take (countWhile p cs)).all p := by
  rw [take_countWhile]
  exact List.all_takeWhile

theorem plain_of_front {k : TokenKind} {n : Nat} (h : front c cs = .ok (k, n))
    (hf : ∀ d, k = .decimal d → Decimal.isFinite d) : Plain k := by
  rcases front_cases h with ⟨hc, h⟩ | ⟨-, h⟩ | ⟨hc, h⟩ | ⟨-, h⟩ | h
  · rcases number_cases h with ⟨i, rfl, hi⟩ | ⟨d, rfl, hd⟩
    · rw [Plain, Decimal.int64?_eq_some_iff.1 hi]
      exact Int.natCast_nonneg _
    · exact Decimal.not_negative_of_parseFloat? hc hd (hf d rfl)
  · obtain ⟨body, rfl, hb⟩ := text_cases h
    rw [Plain, String.toList_ofList]
    exact not_mem_of_textBody hb
  · obtain ⟨rfl, ⟨w, rfl⟩ | ⟨name, rfl, rfl, hw⟩⟩ := word_cases h
    · trivial
    · refine ⟨?_, hw⟩
      rw [String.toList_ofList, Text.isWord, hc, Bool.true_and]
      exact all_take_countWhile cs
  · cases h
    trivial
  · rcases symbol?_cases h with rfl | ⟨s, rfl⟩ <;> trivial

theorem Spells.plain (h : Spells cs ks) :
    ∀ k ∈ ks, (∀ d, k = .decimal d → Decimal.isFinite d) → Plain k := by
  induction h with
  | endOfInput => simp [Plain]
  | blank _ _ ih => exact ih
  | comment _ _ _ ih => exact ih
  | token _ _ hf _ ih =>
    rw [List.forall_mem_cons]
    exact ⟨plain_of_front hf, ih⟩

end Pseudocode.Lexer
