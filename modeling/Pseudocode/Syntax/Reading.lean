import Pseudocode.Syntax.Error

/-! # Readings

A reading takes something off the front of a token list. What it leaves is shorter than what it was
given, so that readings can be repeated until the tokens run out.
-/

namespace Pseudocode

/-- A value read off the front of `ts`, and the tokens after it. -/
structure Parsed (α : Type) (ts : List Token) where
  value : α
  rest : List Token
  shorter : rest.length < ts.length

abbrev Reading (α : Type) := (ts : List Token) → Except SyntaxError (Parsed α ts)

namespace Parsed

variable {α β : Type} {t : Token} {ts us : List Token}

def one (a : α) : Parsed α (t :: ts) :=
  ⟨a, ts, Nat.lt_succ_self _⟩

def map (f : α → β) (p : Parsed α ts) : Parsed β ts :=
  ⟨f p.value, p.rest, p.shorter⟩

def ofTail (p : Parsed α ts) : Parsed α (t :: ts) :=
  ⟨p.value, p.rest, Nat.lt_succ_of_lt p.shorter⟩

def followedBy (p : Parsed α us) (q : Parsed β p.rest) : Parsed β us :=
  ⟨q.value, q.rest, Nat.lt_trans q.shorter p.shorter⟩

def afterToken (p : Parsed α us) (h : p.rest = t :: ts) (q : Parsed β ts) : Parsed β us :=
  ⟨q.value, q.rest, by
    have := q.shorter; have := p.shorter; rw [h, List.length_cons] at this; omega⟩

theorem afterToken_shorter (p : Parsed α us) (h : p.rest = t :: ts) (q : Parsed β ts) :
    (p.afterToken h q).rest.length < p.rest.length := by
  rw [h]
  exact Nat.lt_succ_of_lt q.shorter

end Parsed

/-- The span of the last token; the beginning of the source if there is none. -/
def lastSpan (ts : List Token) : Span :=
  (ts.getLast?.map Token.span).getD .first

/-- The error that the tokens do not go on as expected; `final` is where the source ends. -/
def unexpected (final : Span) (expected : Expectation) : List Token → SyntaxError
  | [] => .unexpected final.line final.column expected "end of input"
  | t :: _ => .unexpected t.span.line t.span.column expected t.describe

def expect (final : Span) (kind : TokenKind) (expected : Expectation) : Reading Unit
  | [] => .error (unexpected final expected [])
  | t :: ts =>
    if t.kind = kind then .ok (.one ()) else .error (unexpected final expected (t :: ts))

end Pseudocode
