import Pseudocode.Directive.Parser
import Pseudocode.Instruction

/-! # Reading instructions

Instructions and directives stand on lines of their own. A section is a run of them up to a keyword
that closes a block, or up to the end of input; the statement that opened the block decides whether
that keyword is the right one.
-/

namespace Pseudocode

/-- The instructions of a block, and the directives found anywhere in it. -/
structure Content where
  instructions : List Instruction
  directives : List Directive

namespace Content

def empty : Content := ⟨[], []⟩

/-- An instruction, whose blocks hold `inner`, and what follows it. -/
def cons (i : Instruction) (inner : List Directive) (c : Content) : Content :=
  ⟨i :: c.instructions, inner ++ c.directives⟩

def consDirective (d : Directive) (c : Content) : Content :=
  ⟨c.instructions, d :: c.directives⟩

end Content

/-- A section of `ts`: the tokens that are left start with what ends it. -/
structure Section (ts : List Token) where
  content : Content
  rest : List Token
  le : rest.length ≤ ts.length

/-- A way to read a section inside a statement that stands on the given line. -/
abbrev SectionReader := (line : Nat) → (ts : List Token) → Except SyntaxError (Section ts)

structure Statement where
  instruction : Instruction
  directives : List Directive

/-- Takes a line break, unless the input ends here. -/
def endLine (final : Span) :
    (ts : List Token) → Except SyntaxError { rest : List Token // rest.length ≤ ts.length }
  | [] => .ok ⟨[], Nat.le_refl _⟩
  | t :: ts =>
    match t.kind with
    | .newline => .ok ⟨ts, Nat.le_succ _⟩
    | .endOfInput => .ok ⟨t :: ts, Nat.le_refl _⟩
    | _ => .error (unexpected final .lineEnd (t :: ts))

namespace Statement

def closeBlock (final : Span) (kind : BlockKind) (line : Nat) {ts : List Token} (s : Section ts) :
    Except SyntaxError (Parsed (Content × Keyword) ts) :=
  match h : s.rest with
  | [] => .error (.unterminatedBlock line kind)
  | t :: rest =>
    match t.kind with
    | .endOfInput => .error (.unterminatedBlock line kind)
    | .keyword k =>
      if kind.closes k then
        .ok ⟨(s.content, k), rest, by have := s.le; rw [h] at this; exact this⟩
      else .error (unexpected final .statement (t :: rest))
    | _ => .error (unexpected final .statement (t :: rest))

def readBlock (final : Span) (inner : SectionReader) (kind : BlockKind) (line : Nat) :
    Reading (Content × Keyword) := fun ts => do
  let rest ← endLine final ts
  let s ← inner line rest.val
  let block ← closeBlock final kind line s
  .ok ⟨block.value, block.rest, Nat.lt_of_lt_of_le block.shorter rest.property⟩

def readAssign (final : Span) (name : String) (line : Nat) : Reading Statement := fun ts => do
  let eq ← expect final (.symbol .equal) .assignment ts
  let e ← Expr.read final eq.rest
  .ok ((eq.followedBy e).map fun _ => ⟨.assign name e.value line, []⟩)

def readBranch (final : Span) (inner : SectionReader) (line : Nat) : Reading Statement := fun ts => do
  let condition ← Expr.read final ts
  let body ← readBlock final inner .si line condition.rest
  let p := condition.followedBy body
  if body.value.2 = .sino then do
    let otherwise ← readBlock final inner .sino line p.rest
    .ok ((p.followedBy otherwise).map fun _ =>
      ⟨.branch condition.value body.value.1.instructions (some otherwise.value.1.instructions) line,
        body.value.1.directives ++ otherwise.value.1.directives⟩)
  else
    .ok (p.map fun _ =>
      ⟨.branch condition.value body.value.1.instructions none line, body.value.1.directives⟩)

def readLoop (final : Span) (inner : SectionReader) (line : Nat) : Reading Statement := fun ts => do
  let condition ← Expr.read final ts
  let body ← readBlock final inner .mientras line condition.rest
  .ok ((condition.followedBy body).map fun _ =>
    ⟨.loop condition.value body.value.1.instructions line, body.value.1.directives⟩)

def readDisplay (final : Span) (line : Nat) : Reading Statement := fun ts => do
  let e ← Expr.read final ts
  .ok (e.map fun e => ⟨.display e line, []⟩)

def readInput (final : Span) (line : Nat) : Reading Statement
  | [] => .error (unexpected final .inputVariable [])
  | t :: ts =>
    match t.kind with
    | .identifier name => .ok (.one ⟨.input name line, []⟩)
    | _ => .error (unexpected final .inputVariable (t :: ts))

/-- Reads a statement; `inner` reads the sections in its blocks. -/
def read (final : Span) (inner : SectionReader) : Reading Statement
  | [] => .error (unexpected final .statement [])
  | t :: ts =>
    let line := t.span.line
    match t.kind with
    | .identifier name => (readAssign final name line ts).map .ofTail
    | .keyword .si => (readBranch final inner line ts).map .ofTail
    | .keyword .mientras => (readLoop final inner line ts).map .ofTail
    | .keyword .mostrar => (readDisplay final line ts).map .ofTail
    | .keyword .leer => (readInput final line ts).map .ofTail
    | _ => .error (unexpected final .statement (t :: ts))

end Statement

namespace Section

def isEnd (t : Token) : Bool :=
  match t.kind with
  | .endOfInput | .keyword .finSi | .keyword .sino | .keyword .finMientras => true
  | _ => false

/-- A section of the tokens left by a reading, as one of the tokens it read from. -/
def prepend {ts us : List Token} (f : Content → Content) (h : us.length ≤ ts.length)
    (s : Section us) : Section ts :=
  ⟨f s.content, s.rest, Nat.le_trans s.le h⟩

def readLines (final : Span) (inner : SectionReader) (ts : List Token) :
    Except SyntaxError (Section ts) :=
  match ts with
  | [] => .ok ⟨.empty, [], Nat.le_refl _⟩
  | t :: rest =>
    if isEnd t then .ok ⟨.empty, t :: rest, Nat.le_refl _⟩
    else if t.kind = .newline then do
      let s ← readLines final inner rest
      .ok (s.prepend id (Nat.le_succ _))
    else if t.kind = .directive then do
      let d ← Directive.read final t.span.line rest
      let next ← endLine final d.rest
      let s ← readLines final inner next.val
      .ok (s.prepend (.consDirective d.value) (by
        have := d.shorter; have := next.property; simp; omega))
    else do
      let p ← Statement.read final inner (t :: rest)
      let next ← endLine final p.rest
      let s ← readLines final inner next.val
      .ok (s.prepend (.cons p.value.instruction p.value.directives) (by
        have := p.shorter; have := next.property; omega))
termination_by ts.length
decreasing_by
  · simp
  · have := d.shorter; have := next.property; simp; omega
  · have := p.shorter; have := next.property; omega

/-- Reads a section in which `allowed` more blocks may be opened. -/
def read (final : Span) : (allowed : Nat) → (ts : List Token) → Except SyntaxError (Section ts)
  | 0, ts => readLines final (fun line _ => .error (.tooDeep line)) ts
  | allowed + 1, ts => readLines final (fun _ => read final allowed) ts

end Section

/-- Reads a whole program: nothing may be left but the end of input. -/
def Content.ofTokens (ts : List Token) : Except SyntaxError Content := do
  let final := lastSpan ts
  let s ← Section.read final maxNesting ts
  match s.rest with
  | [] => .ok s.content
  | t :: rest =>
    if t.kind = .endOfInput then .ok s.content
    else .error (unexpected final .statement (t :: rest))

end Pseudocode
