import Mathlib.Order.Bounds.Basic
import Pseudocode.Proofs.Expr.Derivation
import Pseudocode.Proofs.Expr.Printing
import Pseudocode.Proofs.Token.Literals

/-! # Printed expressions are shortest

The text of an expression has no token that is not in every source of the same tree: printing leaves out
parentheses and adds none. So the text has no more tokens than the source, its parentheses and unary
operators are nested no deeper, and the reader accepts it.

One token changes. A decimal beyond the range of doubles is written as a word, which is read as a variable;
the tree is the same otherwise.
-/

namespace Pseudocode

/-- The kind of token that is read off the text of a token that an expression is written with. Infinity is
written as a word. -/
def TokenKind.printed : TokenKind → TokenKind
  | .decimal d => if Decimal.isFinite d then .decimal d else .identifier "inf"
  | k => k

/-- The tree that is read off the text of a tree: infinity has become a variable. -/
def Expr.printed : Expr → Expr
  | .literal (.decimal d) => if Decimal.isFinite d then .literal (.decimal d) else .var "inf"
  | .literal v => .literal v
  | .var x => .var x
  | .unary op e => .unary op e.printed
  | .binary l op r => .binary l.printed op r.printed

open Lexer

namespace Expr

variable {e : Expr}

theorem printed_literal (v : Value) :
    (Expr.literal v).printed = .literal v ∨ (Expr.literal v).printed = .var "inf" := by
  cases v with
  | decimal d =>
    rw [printed]
    split
    case isTrue => exact .inl rfl
    case isFalse => exact .inr rfl
  | _ => exact .inl rfl

@[simp]
theorem isBinary_printed (e : Expr) : e.printed.isBinary = e.isBinary := by
  cases e with
  | literal v => rcases printed_literal v with h | h <;> exact (congrArg isBinary h).trans rfl
  | _ => rfl

@[simp]
theorem needsParens_printed (e : Expr) (p : Nat) (right : Bool) :
    e.printed.needsParens p right = e.needsParens p right := by
  cases e with
  | literal v => rcases printed_literal v with h | h <;> exact (congrArg (needsParens p right) h).trans rfl
  | _ => rfl

@[simp]
theorem nesting_printed (e : Expr) : e.printed.nesting = e.nesting := by
  induction e with
  | literal v => rcases printed_literal v with h | h <;> exact (congrArg nesting h).trans rfl
  | var x => rfl
  | unary op e ih => simp [printed, nesting, ih]
  | binary l op r ihl ihr => simp [printed, nesting, ihl, ihr]

theorem map_printed_groupKinds (needed : Bool) (ks : List TokenKind) :
    (groupKinds needed ks).map TokenKind.printed = groupKinds needed (ks.map TokenKind.printed) := by
  cases needed with
  | false => rfl
  | true => simp [groupKinds, TokenKind.printed]

theorem kinds_printed (e : Expr) : e.printed.kinds = e.kinds.map TokenKind.printed := by
  induction e with
  | literal v =>
    cases v with
    | decimal d =>
      simp only [printed, kinds, Value.kind, List.map_singleton, TokenKind.printed]
      split <;> rfl
    | boolean b => cases b <;> rfl
    | _ => rfl
  | var x => rfl
  | unary op e ih =>
    have hop : op.kind.printed = op.kind := by cases op <;> rfl
    simp [printed, kinds, ih, hop, map_printed_groupKinds]
  | binary l op r ihl ihr =>
    have hop : op.kind.printed = op.kind := by
      rcases op with (_ | _ | _ | _ | _) | (_ | _ | _ | _ | _ | _) | (_ | _) <;> rfl
    simp [printed, kinds, ihl, ihr, hop, map_printed_groupKinds]

end Expr

/-! ## Tokens of a source -/

/-- What reading a token makes sure of. -/
def Lexer.Legible (k : TokenKind) : Prop :=
  Plain k ∨ ∃ d, k = .decimal d ∧ Decimal.denote d = .infinite false

open Decimal in
theorem Token.legible_of_ofSource {source : String} {ts : List Token}
    (h : Token.ofSource source = .ok ts) : ∀ t ∈ ts, Legible t.kind := by
  intro t ht
  have hplain := (spells_of_ofSource h).plain t.kind (List.mem_map_of_mem ht)
  by_cases hfinite : ∀ d, t.kind = .decimal d → isFinite d
  · exact .inl (hplain hfinite)
  · push Not at hfinite
    obtain ⟨d, hd, hinfinite⟩ := hfinite
    rcases Token.lexed_of_ofSource h t ht with heof | hlexed
    · rw [heof] at hd
      cases hd
    · obtain ⟨whole, fraction, -, -, rfl⟩ := hlexed.exists_pointed hd
      have hranged := (pointDigits whole fraction).ranged_toFloat
      have hle := not_lt.mp fun hlt => hinfinite (hranged.finite hlt)
      exact .inr ⟨_, hd, hranged.infinite hle⟩

theorem Value.printed_of_legible {v : Value} (h : Legible v.kind) :
    (Expr.literal v).printed.Printable ∧ (Expr.literal v).printed.render = v.literal := by
  rcases h with hplain | ⟨d, hd, hinfinite⟩
  · have hliteral := Value.hasLiteral_of_plain hplain
    have hprinted : (Expr.literal v).printed = .literal v := by
      cases v with
      | decimal d =>
        obtain ⟨q, hq⟩ := hplain
        rw [Expr.printed, if_pos (Decimal.isFinite_iff.mpr ⟨_, q, hq⟩)]
      | _ => rfl
    rw [hprinted]
    exact ⟨hliteral, rfl⟩
  · cases v with
    | decimal d' =>
      obtain rfl := TokenKind.decimal.inj hd
      have hprinted : (Expr.literal (.decimal d')).printed = .var "inf" := by
        rw [Expr.printed, if_neg]
        rw [Decimal.isFinite, hinfinite]
        decide
      have hword : Value.literal (.decimal d') = "inf" := by
        rw [Value.literal, Value.render, Decimal.Layout.render, hinfinite]
        · rfl
        · rintro s ⟨⟩
      rw [hprinted, hword]
      exact ⟨Expr.isName_iff.mpr (by decide), rfl⟩
    | boolean b => cases b <;> cases hd
    | _ => cases hd

namespace Phrase

variable {d : Phrase} {ts : List Token} {n : Nat}

theorem Grammatical.printed (h : d.Grammatical) (ht : ∀ t ∈ d.tokens, Legible t.kind) :
    d.expr.printed.Printable ∧ d.expr.printed.render = d.expr.render := by
  induction d with
  | atom t e =>
    have hlegible := ht t List.mem_cons_self
    obtain ⟨v, hk, rfl⟩ | ⟨x, hk, rfl⟩ := Expr.ofToken?_cases h <;> rw [hk] at hlegible
    · exact Value.printed_of_legible hlegible
    · obtain hplain | ⟨d, hd, -⟩ := hlegible
      · exact ⟨Expr.isName_iff.mpr hplain, rfl⟩
      · cases hd
  | unary t op d ih =>
    obtain ⟨hp, hr⟩ := ih h.2.2 fun u hu => ht u (List.mem_cons_of_mem t hu)
    exact ⟨hp, by simp [expr, Expr.printed, Expr.render, hr]⟩
  | group o d c ih =>
    exact ih h.2.2 fun u hu => ht u (List.mem_cons_of_mem o (List.mem_append_left [c] hu))
  | binary l t op r ihl ihr =>
    obtain ⟨-, -, -, hl, hr⟩ := h
    obtain ⟨hpl, hrl⟩ := ihl hl fun u hu => ht u (List.mem_append_left _ hu)
    obtain ⟨hpr, hrr⟩ := ihr hr fun u hu =>
      ht u (List.mem_append_right _ (List.mem_cons_of_mem t hu))
    exact ⟨⟨hpl, hpr⟩, by simp [expr, Expr.printed, Expr.render, hrl, hrr]⟩

/-! ## Tokens that the text has -/

theorem groupKinds_sublist (op : BinaryOp) (right : Bool)
    (hp : op.precedence + right.toNat ≤ d.level) (h : d.expr.kinds.Sublist (d.tokens.map Token.kind))
    (hsix : d.level = 6 →
      (groupKinds d.expr.isBinary d.expr.kinds).Sublist (d.tokens.map Token.kind)) :
    (groupKinds (d.expr.needsParens op.precedence right) d.expr.kinds).Sublist
      (d.tokens.map Token.kind) := by
  cases hneeds : d.expr.needsParens op.precedence right with
  | false => exact h
  | true =>
    obtain ⟨hlevel, hbinary⟩ := of_needsParens hp hneeds
    have hgroup := hsix hlevel
    rwa [hbinary] at hgroup

/-- The text of the tree has some of the tokens of the phrase, and no others. A phrase that holds together
more tightly than any operator has parentheses around a binary operator, so that they are among them. -/
theorem Grammatical.kinds_sublist (h : d.Grammatical) :
    d.expr.kinds.Sublist (d.tokens.map Token.kind) ∧ (d.level = 6 →
      (groupKinds d.expr.isBinary d.expr.kinds).Sublist (d.tokens.map Token.kind)) := by
  induction d with
  | atom t e =>
    have hkinds : e.isBinary = false ∧ e.kinds = [t.kind] := by
      obtain ⟨v, hk, rfl⟩ | ⟨x, hk, rfl⟩ := Expr.ofToken?_cases h <;> rw [hk] <;> exact ⟨rfl, rfl⟩
    rw [expr, hkinds.1, hkinds.2]
    exact ⟨.refl _, fun _ => .refl _⟩
  | unary t op d ih =>
    have hsub := (ih h.2.2).2 h.2.1
    rw [expr, Expr.kinds, tokens, List.map_cons, UnaryOp.eq_kind_of_ofToken? h.1]
    exact ⟨hsub.cons_cons _, fun _ => hsub.cons_cons _⟩
  | group o d c ih =>
    have hsub := (ih h.2.2).1
    have hinside : (d.tokens.map Token.kind).Sublist ((group o d c).tokens.map Token.kind) := by
      rw [tokens, List.map_cons, List.map_append]
      exact (List.sublist_append_left _ _).cons _
    refine ⟨hsub.trans hinside, fun _ => ?_⟩
    rw [expr]
    cases d.expr.isBinary with
    | false => exact hsub.trans hinside
    | true =>
      rw [groupKinds, if_pos rfl, tokens, List.map_cons, List.map_append, h.1, List.map_singleton,
        h.2.1]
      exact (hsub.append (.refl _)).cons_cons _
  | binary l t op r ihl ihr =>
    obtain ⟨hop, hpl, hpr, hgl, hgr⟩ := h
    have hleft := groupKinds_sublist op false hpl (ihl hgl).1 (ihl hgl).2
    have hright := groupKinds_sublist op true hpr (ihr hgr).1 (ihr hgr).2
    refine ⟨?_, fun hsix => ?_⟩
    · rw [tokens, List.map_append, List.map_cons, BinaryOp.eq_kind_of_ofToken? hop]
      exact hleft.append (hright.cons_cons _)
    · have hle := op.precedence_le
      simp only [level] at hsix
      omega

end Phrase

/-! ## How deep the tokens are nested -/

/-- In the tokens of an expression parentheses and unary operators are nested `k` deep: so many of them are
open at once, and never more. -/
def Nests (ts : List Token) (k : Nat) : Prop :=
  IsLeast {n | ∃ e, Expr.Derives n 1 ts e} k

theorem Phrase.Grammatical.nests {d : Phrase} (h : d.Grammatical) : Nests d.tokens d.nesting := by
  refine ⟨⟨d.expr, Expr.derives_of_phrase h (Nat.le_refl _) d.one_le_level⟩, ?_⟩
  rintro n ⟨e, he⟩
  obtain ⟨d', ⟨hg, hn, hp, htokens, hstops⟩, -⟩ := he.exists_phrase
  -- both phrases stand in front of the same tokens, whatever nesting is allowed
  have hd : d.Front (max n d.nesting) 1 d.tokens [] :=
    ⟨h, Nat.le_max_right _ _, d.one_le_level, List.append_nil _, hstops⟩
  have hd' : d'.Front (max n d.nesting) 1 d.tokens [] :=
    ⟨hg, hn.trans (Nat.le_max_left _ _), hp, htokens, hstops⟩
  obtain ⟨rfl, -⟩ := hd.unique (by decide) hd'
  exact hn

namespace Expr

variable {source : String} {ts : List Token} {e : Expr} {n : Nat}

/-- The text of an expression that was read off a source has some of its tokens, nested no deeper, and no
others. It is accepted, and it is read as the same tree. -/
theorem render_shortest (h : Token.ofSource source = .ok ts) (he : ofTokens ts = .ok (e, n)) :
    ∃ us eof, Token.ofSource e.render = .ok (us ++ [eof]) ∧ eof.kind = .endOfInput ∧ us.length ≤ n ∧
      (us.map Token.kind).Sublist ((ts.take n).map (·.kind.printed)) ∧
      (∃ k k', Nests us k ∧ Nests (ts.take n) k' ∧ k ≤ k' ∧ k' ≤ maxNesting) ∧
      ofTokens (us ++ [eof]) = .ok (e.printed, us.length) := by
  obtain ⟨d, rest, ⟨hg, hnesting, -, rfl, -⟩, rfl, rfl⟩ :=
    begins_iff_front.mp (((ofTokens_eq_ok_iff_begins ts).1 e n).mp he)
  have hcount : (d.tokens ++ rest).length - rest.length = d.tokens.length := by simp
  rw [hcount, List.take_left]
  -- the tokens that are read off the text, and their phrase
  obtain ⟨hprintable, hrender⟩ := hg.printed fun t ht =>
    Token.legible_of_ofSource h t (List.mem_append_left _ ht)
  obtain ⟨vs, hvs, hkinds⟩ := ofSource_eq_ok_iff.mpr (writes_render hprintable).spells
  obtain ⟨us, ws, rfl, hus, hws⟩ := List.map_eq_append_iff.mp hkinds
  obtain ⟨eof, rfl, heof⟩ := List.map_eq_singleton_iff.mp hws
  obtain ⟨d', rfl, hg', hexpr, hnesting', -⟩ := Phrase.exists_parses _ hus
  rw [nesting_printed] at hnesting'
  have hle : d'.nesting ≤ d.nesting := hnesting' ▸ hg.nesting_le.1
  have hstops : Stops 1 [eof] := by
    rw [stops_cons, heof]
    exact nofun
  have hfront : d'.Front maxNesting 1 (d'.tokens ++ [eof]) [eof] :=
    ⟨hg', hle.trans hnesting, d'.one_le_level, rfl, hstops⟩
  have hsublist : (d'.tokens.map Token.kind).Sublist (d.tokens.map (·.kind.printed)) := by
    have hmap := hg.kinds_sublist.1.map TokenKind.printed
    rwa [← kinds_printed, ← hus, List.map_map] at hmap
  have hlength := hsublist.length_le
  rw [List.length_map, List.length_map] at hlength
  refine ⟨d'.tokens, eof, hrender ▸ hvs, heof, hlength, hsublist,
    ⟨_, _, hg'.nests, hg.nests, hle, hnesting⟩, ?_⟩
  exact ((ofTokens_eq_ok_iff_begins _).1 _ _).mpr
    (begins_iff_front.mpr ⟨d', [eof], hfront, hexpr, by simp⟩)

/-- One of three pairs of parentheses is needed. -/
theorem render_shortest_parens : ∃ ts, Token.ofSource "((x)) - (y - -z)" = .ok ts ∧
    ofTokens ts = .ok (.binary (.var "x") (.arith .subtract)
      (.binary (.var "y") (.arith .subtract) (.unary .negate (.var "z"))), 12) ∧
    ∃ us eof, Token.ofSource "x - (y - -z)" = .ok (us ++ [eof]) ∧ us.length ≤ 12 := by
  let ts : List Token := [⟨.symbol .leftParen, "(", ⟨1, 1, 0, 1⟩⟩, ⟨.symbol .leftParen, "(", ⟨1, 2, 1, 2⟩⟩,
    ⟨.identifier "x", "x", ⟨1, 3, 2, 3⟩⟩, ⟨.symbol .rightParen, ")", ⟨1, 4, 3, 4⟩⟩,
    ⟨.symbol .rightParen, ")", ⟨1, 5, 4, 5⟩⟩, ⟨.symbol .minus, "-", ⟨1, 7, 6, 7⟩⟩,
    ⟨.symbol .leftParen, "(", ⟨1, 9, 8, 9⟩⟩, ⟨.identifier "y", "y", ⟨1, 10, 9, 10⟩⟩,
    ⟨.symbol .minus, "-", ⟨1, 12, 11, 12⟩⟩, ⟨.symbol .minus, "-", ⟨1, 14, 13, 14⟩⟩,
    ⟨.identifier "z", "z", ⟨1, 15, 14, 15⟩⟩, ⟨.symbol .rightParen, ")", ⟨1, 16, 15, 16⟩⟩,
    ⟨.endOfInput, "", ⟨1, 17, 16, 16⟩⟩]
  have h : Token.ofSource "((x)) - (y - -z)" = .ok ts := by
    cbv
  have he : ofTokens ts = .ok (.binary (.var "x") (.arith .subtract)
      (.binary (.var "y") (.arith .subtract) (.unary .negate (.var "z"))), 12) := by
    cbv
  obtain ⟨us, eof, hus, -, hlength, -⟩ := render_shortest h he
  exact ⟨ts, h, he, us, eof, hus, hlength⟩

end Expr
end Pseudocode
