import Pseudocode.Proofs.Token.Lines

/-! # Lexemes read again

A lexeme stands for its token wherever nothing follows that goes on with it. What goes on with a token
depends on its kind alone.
-/

namespace Pseudocode

def Symbol.first : Symbol → Char
  | .equal => '='
  | .less | .lessEqual | .notEqual => '<'
  | .greater | .greaterEqual => '>'
  | .plus => '+'
  | .minus => '-'
  | .star => '*'
  | .slash => '/'
  | .leftParen => '('
  | .rightParen => ')'
  | .comma => ','
  | .dot => '.'

def Token.spelled (t : Token) : TokenKind × String :=
  (t.kind, t.lexeme)

namespace Lexer

variable {c : Char} {cs rest rest' body : List Char} {k : TokenKind} {n : Nat}

/-! ## Numbers -/

theorem forall_of_countWhile_eq {p : Char → Bool} (h : countWhile p (cs ++ rest) = cs.length) :
    ∀ c ∈ cs, p c := by
  have htake : (cs ++ rest).takeWhile p = cs := by
    rw [← take_countWhile, h, List.take_left]
  rw [← htake]
  exact List.all_eq_true.mp List.all_takeWhile

theorem exists_of_fractionLength (h : fractionLength cs ≠ 0) : ∃ ds, cs = '.' :: ds ∧
    countWhile Char.isDigit ds ≠ 0 ∧ fractionLength cs = countWhile Char.isDigit ds + 1 := by
  unfold fractionLength at h ⊢
  split at h
  case h_1 ds =>
    split at h
    case isTrue => exact absurd rfl h
    case isFalse hds => exact ⟨ds, rfl, hds, if_neg hds⟩
  case h_2 => exact absurd rfl h

theorem exists_take_numberLength (h : fractionLength (cs.drop (countWhile Char.isDigit cs)) ≠ 0) :
    ∃ ds fs, cs.take (numberLength cs) = ds ++ '.' :: fs ∧ (∀ d ∈ ds, d.isDigit) ∧
      (∀ d ∈ fs, d.isDigit) ∧ fs ≠ [] := by
  obtain ⟨ds, hds, hne, hcount⟩ := exists_of_fractionLength h
  refine ⟨cs.takeWhile Char.isDigit, ds.takeWhile Char.isDigit, ?_, List.all_eq_true.mp
    List.all_takeWhile, List.all_eq_true.mp List.all_takeWhile, ?_⟩
  · rw [numberLength, hcount, List.take_add, hds, List.take_succ_cons, take_countWhile,
      take_countWhile]
  · rwa [← List.length_pos_iff_ne_nil, Nat.pos_iff_ne_zero]

theorem numeral_of_number (h : number c (cs ++ rest) = .ok (k, cs.length)) : Numeral c cs k := by
  have hlength := length_eq_of_number h
  have htake : (cs ++ rest).take (numberLength (cs ++ rest)) = cs := by
    rw [← hlength, List.take_left]
  simp only [number, ← numberLength.eq_def, htake] at h
  split at h
  case isTrue hfraction =>
    rw [numberLength, hfraction, Nat.add_zero] at hlength
    split at h
    case h_1 n hn =>
      obtain ⟨rfl, -⟩ := Prod.mk.inj (Except.ok.inj h)
      exact .integer (forall_of_countWhile_eq hlength.symm) hn
    case h_2 => cases h
  case isFalse hfraction =>
    obtain ⟨ds, fs, hcs, hds, hfs, hne⟩ := exists_take_numberLength hfraction
    obtain rfl : cs = ds ++ '.' :: fs := htake.symm.trans hcs
    split at h
    case h_1 x hx =>
      obtain ⟨rfl, -⟩ := Prod.mk.inj (Except.ok.inj h)
      exact .decimal hds hfs hne hx
    case h_2 => cases h

/-! ## Texts, words and marks -/

theorem take_of_textBody (h : textBody cs = some (body, n)) :
    cs.take n = Text.doubleQuotes body ++ ['"'] := by
  fun_induction textBody cs generalizing body n with
  | case1 cs ih =>
    obtain ⟨⟨body, n⟩, hbody, hn⟩ := Option.map_eq_some_iff.mp h
    obtain ⟨rfl, rfl⟩ := Prod.mk.inj hn
    rw [List.take_succ_cons, List.take_succ_cons, ih hbody, Text.doubleQuotes, if_pos rfl]
    rfl
  | case2 =>
    obtain ⟨rfl, rfl⟩ := Prod.mk.inj (Option.some.inj h)
    rfl
  | case3 => cases h
  | case4 => cases h
  | case5 c cs _ hquote _ ih =>
    obtain ⟨⟨body, n⟩, hbody, hn⟩ := Option.map_eq_some_iff.mp h
    obtain ⟨rfl, rfl⟩ := Prod.mk.inj hn
    rw [List.take_succ_cons, ih hbody, Text.doubleQuotes, if_neg hquote, List.cons_append]

theorem textBody_of_apart (h : textBody (cs ++ rest) = some (body, cs.length))
    (hr : ∀ c ∈ rest'.head?, c ≠ '"') : textBody (cs ++ rest') = some (body, cs.length) := by
  have hcs : cs = Text.doubleQuotes body ++ ['"'] := by
    rw [← take_of_textBody h, List.take_left]
  have hbody := textBody_doubleQuotes (not_mem_of_textBody h) hr
  rw [hcs, List.append_assoc, List.length_append]
  exact hbody

theorem word_of_apart (h : word c (cs ++ rest) = (k, cs.length))
    (hr : ∀ c ∈ rest'.head?, ¬ Text.isWordChar c) : word c (cs ++ rest') = (k, cs.length) := by
  have hcount : countWhile Text.isWordChar (cs ++ rest) = cs.length := congrArg Prod.snd h
  have hcount' : countWhile Text.isWordChar (cs ++ rest') = cs.length :=
    countWhile_eq_length (forall_of_countWhile_eq hcount) hr
  rw [← h, word, word, hcount, hcount', List.take_left, List.take_left]

theorem symbol?_of_apart (h : symbol? c (cs ++ rest) = some (k, cs.length)) (hr : Apart k rest') :
    symbol? c (cs ++ rest') = some (k, cs.length) := by
  rcases cs with _ | ⟨d, _ | ⟨e, cs⟩⟩
  · rw [List.nil_append] at h ⊢
    unfold symbol? at h
    split at h <;> cases h
    case h_5 =>
      cases rest' with
      | nil => rfl
      | cons d rest' => simp [symbol?, hr d rfl]
    case h_7 =>
      cases rest' with
      | nil => rfl
      | cons d rest' =>
        have hd : d ≠ '=' := hr d rfl
        simp [symbol?, hd]
    all_goals rfl
  · rw [List.singleton_append] at h ⊢
    unfold symbol? at h
    split at h
    case h_3 | h_4 | h_6 =>
      rename_i heq
      obtain ⟨rfl, -⟩ := List.cons.inj heq
      exact h
    all_goals cases h
  · unfold symbol? at h
    split at h <;> cases h

/-- A token is read alike wherever nothing that follows goes on with it. -/
theorem front_of_apart (h : front c (cs ++ rest) = .ok (k, cs.length)) (hr : Apart k rest') :
    front c (cs ++ rest') = .ok (k, cs.length) := by
  unfold front at h ⊢
  split at h
  case isTrue hdigit =>
    rw [if_pos hdigit]
    exact (numeral_of_number h).number hr
  case isFalse hdigit =>
    rw [if_neg hdigit]
    split at h
    case isTrue hquote =>
      obtain ⟨body, rfl, hbody⟩ := text_cases h
      rw [if_pos hquote, text, textBody_of_apart hbody hr]
    case isFalse hquote =>
      rw [if_neg hquote]
      split at h
      case isTrue hletter =>
        have hword := Except.ok.inj h
        have hr' : ∀ d ∈ rest'.head?, ¬ Text.isWordChar d := by
          rcases (word_cases hword).2 with ⟨w, rfl⟩ | ⟨x, rfl, -⟩ <;> exact hr
        rw [if_pos hletter, word_of_apart hword hr']
      case isFalse hletter =>
        rw [if_neg hletter]
        split at h
        case isTrue hhash => rw [if_pos hhash, h]
        case isFalse hhash =>
          rw [if_neg hhash]
          split at h
          case h_1 m hm =>
            obtain rfl := Except.ok.inj h
            rw [symbol?_of_apart hm hr]
          case h_2 => cases h

/-! ## Lexemes of tokens -/

/-- The token is what is read at the front of some text. -/
def Lexed (t : Token) : Prop :=
  ∃ c cs rest, t.lexeme.toList = c :: cs ∧ ¬ Text.isBlank c ∧
    ¬ (c = '#' && !isDirective (cs ++ rest)) ∧ front c (cs ++ rest) = .ok (t.kind, cs.length)

theorem lexed_of_scan (p : Position) (cs : List Char) :
    ∀ t ∈ (scan p cs).1, t.kind = .endOfInput ∨ Lexed t := by
  fun_induction scan p cs with
  | case1 p => simp [tokenAt]
  | case2 p c cs hb ih => exact ih
  | case3 p c cs hb hc n ih => exact ih
  | case4 p c cs hb hc fault hf => rintro _ ⟨⟩
  | case5 p c cs hb hc k n hf ts e hts ih =>
    rw [hts] at ih
    rw [List.forall_mem_cons]
    refine ⟨.inr ⟨c, cs.take n, cs.drop n, ?_, hb, ?_, ?_⟩, ih⟩
    · exact String.toList_ofList
    · rwa [List.take_append_drop]
    · have hn : n ≤ cs.length := length_le_of_front (by simpa using hc) hf
      rw [List.take_append_drop, List.length_take_of_le hn]
      exact hf

def Begins : TokenKind → Char → Prop
  | .integer _, c | .decimal _, c => c.isDigit
  | .text _, c => c = '"'
  | .keyword _, c | .identifier _, c => Text.isLetter c
  | .directive, c => c = '#'
  | .symbol s, c => c = s.first
  | .newline, c => c = '\n'
  | .endOfInput, _ => False

theorem begins_of_front (h : front c cs = .ok (k, n)) : Begins k c := by
  rcases front_cases h with ⟨hc, h⟩ | ⟨hc, h⟩ | ⟨hc, h⟩ | ⟨hc, h⟩ | h
  · rcases number_cases h with ⟨i, rfl, -⟩ | ⟨d, rfl, -⟩ <;> exact hc
  · obtain ⟨body, rfl, -⟩ := text_cases h
    exact hc
  · rcases (word_cases h).2 with ⟨w, rfl⟩ | ⟨x, rfl, -⟩ <;> exact hc
  · cases h
    exact hc
  · unfold symbol? at h
    split at h <;> cases h <;> rfl

theorem Lexed.exists_begins {t : Token} (h : Lexed t) :
    ∃ c cs, t.lexeme.toList = c :: cs ∧ Begins t.kind c := by
  obtain ⟨c, cs, rest, hc, -, -, hf⟩ := h
  exact ⟨c, cs, hc, begins_of_front hf⟩

theorem Lexed.wordKind_eq {t : Token} (h : Lexed t)
    (hk : (∃ w, t.kind = .keyword w) ∨ ∃ x, t.kind = .identifier x) :
    wordKind t.lexeme = t.kind := by
  obtain ⟨c, cs, rest, hc, -, -, hf⟩ := h
  have hletter : Text.isLetter c := by
    have hbegins := begins_of_front hf
    rcases hk with ⟨w, hk⟩ | ⟨x, hk⟩ <;> rwa [hk] at hbegins
  rw [front_of_isLetter hletter] at hf
  obtain ⟨hkind, hlength⟩ := Prod.mk.inj (Except.ok.inj hf)
  rw [hlength, List.take_left, ← hc, String.ofList_toList] at hkind
  exact hkind

theorem Lexed.lexeme_of_identifier {t : Token} {x : String} (h : Lexed t)
    (hk : t.kind = .identifier x) : t.lexeme = x := by
  have hword := h.wordKind_eq (.inr ⟨x, hk⟩)
  rw [hk, wordKind] at hword
  split at hword
  case h_1 => cases hword
  case h_2 => exact TokenKind.identifier.inj hword

theorem Lexed.ofWord?_of_keyword {t : Token} {w : Keyword} (h : Lexed t)
    (hk : t.kind = .keyword w) : Keyword.ofWord? t.lexeme = some w := by
  have hword := h.wordKind_eq (.inl ⟨w, hk⟩)
  rw [hk, wordKind] at hword
  split at hword
  case h_1 w' hw =>
    rw [hw, TokenKind.keyword.inj hword]
  case h_2 => cases hword

/-! ## Texts and what is read off them -/

/-- The kinds of the tokens of a text, with their lexemes, wherever it stands. -/
def Scans (cs : List Char) (ps : List (TokenKind × String)) : Prop :=
  ∀ p, (scan p cs).2 = none ∧ (scan p cs).1.map Token.spelled = ps

variable {ps : List (TokenKind × String)} {t u : Token} {ts : List Token}

theorem scans_nil : Scans [] [(.endOfInput, "")] := by
  intro p
  simp [scan, tokenAt, Token.spelled]

theorem Scans.blank (hc : Text.isBlank c) (h : Scans cs ps) : Scans (c :: cs) ps := by
  intro p
  rw [scan, if_pos hc]
  exact h _

theorem Scans.token (hblank : ¬ Text.isBlank c) (hcomment : ¬ (c = '#' && !isDirective (cs ++ rest)))
    (hf : front c (cs ++ rest) = .ok (k, cs.length)) (h : Scans rest ps) :
    Scans (c :: (cs ++ rest)) ((k, .ofList (c :: cs)) :: ps) := by
  intro p
  rw [scan, if_neg hblank, if_neg hcomment]
  simp only [hf, List.take_left, List.drop_left]
  exact ⟨(h _).1, congrArg (_ :: ·) (h _).2⟩

theorem Numeral.scans (hc : c.isDigit) (h : Numeral c cs k) (hr : Apart k rest)
    (hrest : Scans rest ps) : Scans (c :: (cs ++ rest)) ((k, .ofList (c :: cs)) :: ps) := by
  refine .token (not_isBlank_of_isDigit hc) ?_ ?_ hrest
  · have hne : c ≠ '#' := by
      rintro rfl
      cases hc
    simp [hne]
  · rw [front, if_pos hc, h.number hr]

theorem isDirective_of_apart (h : isDirective (cs ++ rest)) (hcs : cs.length = directiveTail.length)
    (hr : Apart .directive rest') : isDirective (cs ++ rest') := by
  obtain ⟨after, hafter, -⟩ := isDirective_iff.mp h
  obtain ⟨rfl, -⟩ := List.append_inj (List.cons.inj hafter).2 hcs
  exact isDirective_iff.mpr ⟨rest', rfl, hr⟩

/-- A token is read off its lexeme again. -/
theorem Lexed.scans (h : Lexed t) (hr : Apart t.kind rest) (hrest : Scans rest ps) :
    Scans (t.lexeme.toList ++ rest) (t.spelled :: ps) := by
  obtain ⟨c, cs, rest', hc, hblank, hcomment, hf⟩ := h
  have hlexeme : t.lexeme = .ofList (c :: cs) := by rw [← hc, String.ofList_toList]
  have hcomment' : ¬ (c = '#' && !isDirective (cs ++ rest)) := by
    simp only [Bool.and_eq_true, decide_eq_true_eq, Bool.not_eq_true', not_and,
      Bool.not_eq_false] at hcomment ⊢
    rintro rfl
    rw [front, if_neg (by decide), if_neg (by decide), if_neg (by decide), if_pos rfl] at hf
    obtain ⟨hk, hlength⟩ := Prod.mk.inj (Except.ok.inj hf)
    exact isDirective_of_apart (hcomment rfl) hlength.symm (hk ▸ hr)
  rw [Token.spelled, hc, hlexeme]
  exact .token hblank hcomment' (front_of_apart hf hr) hrest

/-- No token of the second kind goes on with one of the first kind that stands right before it. -/
def Separate (k k' : TokenKind) : Prop :=
  ∀ c rest, Begins k' c → Apart k (c :: rest)

theorem scans_flatMap (hts : ∀ t ∈ ts, Lexed t)
    (hseparate : ts.IsChain fun t u => Separate t.kind u.kind) (hlast : ∀ t ∈ ts.getLast?, Apart t.kind rest)
    (hrest : Scans rest ps) : Scans (ts.flatMap (·.lexeme.toList) ++ rest)
      (ts.map Token.spelled ++ ps) := by
  induction ts with
  | nil => exact hrest
  | cons t ts ih =>
    rw [List.forall_mem_cons] at hts
    rw [List.isChain_cons] at hseparate
    rw [List.flatMap_cons, List.append_assoc]
    cases ts with
    | nil => exact hts.1.scans (hlast t rfl) hrest
    | cons u ts =>
      refine hts.1.scans ?_ (ih hts.2 hseparate.2 hlast)
      obtain ⟨c, cs, hc, hbegins⟩ := (hts.2 u List.mem_cons_self).exists_begins
      rw [List.flatMap_cons, hc]
      exact hseparate.1 u rfl c _ hbegins

end Lexer

open Lexer in
theorem Token.lexed_of_ofSource {source : String} {ts : List Token}
    (h : Token.ofSource source = .ok ts) : ∀ t ∈ ts, t.kind = .endOfInput ∨ Lexed t := by
  have hlexed := lexed_of_scan ⟨1, 1, 0⟩ source.toList
  rwa [← Token.scan, Token.ofSource_eq_ok h] at hlexed

open Lexer in
theorem Token.exists_of_scans {source : String} {ps : List (TokenKind × String)}
    (h : Scans source.toList ps) :
    ∃ ts, Token.ofSource source = .ok ts ∧ ts.map Token.spelled = ps := by
  obtain ⟨hnone, hps⟩ := h ⟨1, 1, 0⟩
  refine ⟨_, ?_, hps⟩
  unfold Token.ofSource
  rw [show Token.scan source = ((Token.scan source).1, none) from Prod.ext rfl hnone]
  rfl

end Pseudocode
