import Pseudocode.Token.Lexer

/-! # Texts and the tokens that they spell

Where a text stands has no influence on the kinds of its tokens. A text spells kinds of tokens if it
can be cut into their lexemes, with blanks and comments between them.
-/

namespace Pseudocode.Lexer

theorem take_countWhile (p : Char → Bool) (cs : List Char) :
    cs.take (countWhile p cs) = cs.takeWhile p :=
  (List.prefix_iff_eq_take.mp (List.takeWhile_prefix p)).symm

theorem drop_countWhile (p : Char → Bool) (cs : List Char) :
    cs.drop (countWhile p cs) = cs.dropWhile p := by
  have hsplit := List.takeWhile_append_dropWhile (p := p) (l := cs)
  calc cs.drop (countWhile p cs)
      = (cs.takeWhile p ++ cs.dropWhile p).drop (cs.takeWhile p).length := by rw [hsplit, countWhile]
    _ = cs.dropWhile p := List.drop_left

/-- The text spells tokens of the given kinds, the last one being the end of input. -/
inductive Spells : List Char → List TokenKind → Prop where
  | endOfInput : Spells [] [.endOfInput]
  | blank {c : Char} {cs : List Char} {ks : List TokenKind} :
    Text.isBlank c → Spells cs ks → Spells (c :: cs) ks
  | comment {c : Char} {cs : List Char} {ks : List TokenKind} :
    ¬ Text.isBlank c → (c = '#' && !isDirective cs) →
      Spells (cs.drop (countWhile (· ≠ '\n') cs)) ks → Spells (c :: cs) ks
  | token {c : Char} {cs : List Char} {k : TokenKind} {n : Nat} {ks : List TokenKind} :
    ¬ Text.isBlank c → ¬ (c = '#' && !isDirective cs) → front c cs = .ok (k, n) →
      Spells (cs.drop n) ks → Spells (c :: cs) (k :: ks)

theorem spells_of_scan (p : Position) (cs : List Char) (h : (scan p cs).2 = none) :
    Spells cs ((scan p cs).1.map Token.kind) := by
  fun_induction scan p cs with
  | case1 p => exact .endOfInput
  | case2 p c cs hb ih => exact .blank hb (ih h)
  | case3 p c cs hb hc n ih => exact .comment hb hc (ih h)
  | case4 p c cs hb hc fault hf => cases h
  | case5 p c cs hb hc k n hf ts e hts ih =>
    rw [hts] at ih
    exact .token hb hc hf (ih h)

theorem Spells.scan {cs : List Char} {ks : List TokenKind} (h : Spells cs ks) (p : Position) :
    (scan p cs).2 = none ∧ (scan p cs).1.map Token.kind = ks := by
  induction h generalizing p with
  | endOfInput => simp [Lexer.scan, tokenAt]
  | blank hb _ ih =>
    rw [Lexer.scan, if_pos hb]
    exact ih _
  | comment hb hc _ ih =>
    rw [Lexer.scan, if_neg hb, if_pos hc]
    exact ih _
  | token hb hc hf _ ih =>
    rw [Lexer.scan, if_neg hb, if_neg hc]
    simp only [hf]
    exact ⟨(ih _).1, congrArg (_ :: ·) (ih _).2⟩

/-- The tokens of a text are those that it spells. -/
theorem ofSource_eq_ok_iff {source : String} {ks : List TokenKind} :
    (∃ ts, Token.ofSource source = .ok ts ∧ ts.map Token.kind = ks) ↔ Spells source.toList ks := by
  constructor
  · rintro ⟨ts, h, rfl⟩
    unfold Token.ofSource at h
    split at h
    case h_1 ts' hs =>
      cases h
      have := spells_of_scan ⟨1, 1, 0⟩ source.toList (by rw [← Token.scan, hs])
      rwa [← Token.scan, hs] at this
    case h_2 => cases h
  · intro h
    obtain ⟨hnone, hks⟩ := h.scan ⟨1, 1, 0⟩
    refine ⟨(Token.scan source).1, ?_, hks⟩
    have : Token.scan source = ((Token.scan source).1, none) := Prod.ext rfl hnone
    unfold Token.ofSource
    rw [this]

theorem spells_of_ofSource {source : String} {ts : List Token}
    (h : Token.ofSource source = .ok ts) : Spells source.toList (ts.map Token.kind) :=
  ofSource_eq_ok_iff.mp ⟨ts, h, rfl⟩

/-! ## One token -/

theorem front_cases {c : Char} {cs : List Char} {m : Match} (h : front c cs = .ok m) :
    (c.isDigit ∧ number c cs = .ok m) ∨ (c = '"' ∧ text cs = .ok m) ∨
      (Text.isLetter c ∧ word c cs = m) ∨ (c = '#' ∧ m = (.directive, directiveTail.length)) ∨
      symbol? c cs = some m := by
  unfold front at h
  split at h
  case isTrue hd => exact .inl ⟨hd, h⟩
  case isFalse hd =>
    split at h
    case isTrue hq => exact .inr (.inl ⟨hq, h⟩)
    case isFalse hq =>
      split at h
      case isTrue hl => exact .inr (.inr (.inl ⟨hl, Except.ok.inj h⟩))
      case isFalse hl =>
        split at h
        case isTrue hs => exact .inr (.inr (.inr (.inl ⟨hs, (Except.ok.inj h).symm⟩)))
        case isFalse hs =>
          split at h
          case h_1 m' hm =>
            exact .inr (.inr (.inr (.inr (hm.trans (congrArg some (Except.ok.inj h))))))
          case h_2 => cases h

theorem number_cases {c : Char} {cs : List Char} {k : TokenKind} {n : Nat}
    (h : number c cs = .ok (k, n)) :
    (∃ i, k = .integer i ∧ Decimal.int64? (Decimal.digitsValue (c :: cs.take n)) = some i) ∨
      ∃ d, k = .decimal d ∧ Decimal.parseFloat? (c :: cs.take n) = some d := by
  simp only [number] at h
  split at h
  case isTrue hf =>
    split at h
    case h_1 i hi =>
      cases h
      exact .inl ⟨i, rfl, hi⟩
    case h_2 => cases h
  case isFalse hf =>
    split at h
    case h_1 d hd =>
      cases h
      exact .inr ⟨d, rfl, hd⟩
    case h_2 => cases h

theorem text_cases {cs : List Char} {k : TokenKind} {n : Nat} (h : text cs = .ok (k, n)) :
    ∃ body, k = .text (.ofList body) ∧ textBody cs = some (body, n) := by
  unfold text at h
  split at h
  case h_1 body m hb =>
    cases h
    exact ⟨body, rfl, hb⟩
  case h_2 => cases h

theorem word_cases {c : Char} {cs : List Char} {k : TokenKind} {n : Nat} (h : word c cs = (k, n)) :
    n = countWhile Text.isWordChar cs ∧
      ((∃ w, k = .keyword w) ∨ ∃ name, k = .identifier name ∧ name = .ofList (c :: cs.take n) ∧
        Keyword.ofWord? name = none) := by
  obtain ⟨hk, rfl⟩ := Prod.mk.inj h
  refine ⟨rfl, ?_⟩
  split at hk
  case h_1 w hw => exact .inl ⟨w, hk.symm⟩
  case h_2 hw => exact .inr ⟨_, hk.symm, rfl, hw⟩

theorem symbol?_cases {c : Char} {cs : List Char} {k : TokenKind} {n : Nat}
    (h : symbol? c cs = some (k, n)) : k = .newline ∨ ∃ s, k = .symbol s := by
  unfold symbol? at h
  split at h <;> cases h <;> simp

theorem front_ne_endOfInput {c : Char} {cs : List Char} {k : TokenKind} {n : Nat}
    (h : front c cs = .ok (k, n)) : k ≠ .endOfInput := by
  rintro rfl
  rcases front_cases h with ⟨-, h⟩ | ⟨-, h⟩ | ⟨-, h⟩ | ⟨-, h⟩ | h
  · rcases number_cases h with ⟨i, hk, -⟩ | ⟨d, hk, -⟩ <;> cases hk
  · obtain ⟨body, hk, -⟩ := text_cases h
    cases hk
  · rcases (word_cases h).2 with ⟨w, hk⟩ | ⟨name, hk, -⟩ <;> cases hk
  · cases h
  · rcases symbol?_cases h with hk | ⟨s, hk⟩ <;> cases hk

theorem Spells.exists_append {cs : List Char} {ks : List TokenKind} (h : Spells cs ks) :
    ∃ ks', ks = ks' ++ [.endOfInput] ∧ ∀ k ∈ ks', k ≠ .endOfInput := by
  induction h with
  | endOfInput => exact ⟨[], rfl, by simp⟩
  | blank _ _ ih => exact ih
  | comment _ _ _ ih => exact ih
  | token _ _ hf _ ih =>
    obtain ⟨ks', rfl, hks⟩ := ih
    exact ⟨_ :: ks', rfl, by simpa using ⟨front_ne_endOfInput hf, hks⟩⟩

end Pseudocode.Lexer

namespace Pseudocode

theorem Token.exists_append_of_ofSource {source : String} {ts : List Token}
    (h : Token.ofSource source = .ok ts) :
    ∃ us t, ts = us ++ [t] ∧ t.kind = .endOfInput ∧ ∀ u ∈ us, u.kind ≠ .endOfInput := by
  obtain ⟨ks, hks, hne⟩ := (Lexer.spells_of_ofSource h).exists_append
  obtain ⟨us, vs, rfl, hus, hvs⟩ := List.map_eq_append_iff.mp hks
  obtain ⟨t, rfl, ht⟩ := List.map_eq_singleton_iff.mp hvs
  refine ⟨us, t, rfl, ht, fun u hu => hne _ ?_⟩
  rw [← hus]
  exact List.mem_map_of_mem hu

end Pseudocode
