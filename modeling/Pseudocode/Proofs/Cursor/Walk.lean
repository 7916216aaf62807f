import Pseudocode.Instruction.Parser

/-! # Walks

A walk reads tokens with a cursor that it moves on by itself. The cursor counts the tokens that it has passed,
whether they are there or not, and the blocks and operators that are open; and it remembers what it has done.
What a walk does is told by a reading of the tokens that the cursor stands before.
-/

namespace Pseudocode

inductive Nesting where
  | block
  | operator

inductive Move where
  /-- It passes a token. -/
  | pass
  /-- It begins with a line of a block, or finds that there is none. -/
  | line
  /-- It goes a level deeper. -/
  | descend
  /-- It begins with a part of what is read. -/
  | enter
  /-- It is done with the part, or fails in it. -/
  | leave
  deriving DecidableEq

/-- What a cursor has done, and where that has left it. -/
structure Moment where
  move : Move
  position : Nat
  blocks : Nat
  operators : Nat

structure Cursor where
  /-- How many tokens it has passed. -/
  position : Nat
  blocks : Nat
  operators : Nat
  /-- The directives found so far. -/
  directives : List Directive
  history : List Moment

/-- Why a walk does not come to its end. -/
inductive Halt where
  | error (e : SyntaxError)
  /-- Tokens were taken that are not there. -/
  | outOfRange
  | outOfFuel

abbrev Walk := EStateM Halt Cursor

namespace Cursor

def start : Cursor := ⟨0, 0, 0, [], []⟩

def moment (c : Cursor) (move : Move) : Moment :=
  ⟨move, c.position, c.blocks, c.operators⟩

def note (c : Cursor) (move : Move) : Cursor :=
  { c with history := c.history ++ [c.moment move] }

def passed (c : Cursor) : Cursor :=
  { c with position := c.position + 1 }.note .pass

def depth (c : Cursor) : Nesting → Nat
  | .block => c.blocks
  | .operator => c.operators

def setDepth (c : Cursor) (depth : Nat) : Nesting → Cursor
  | .block => { c with blocks := depth }
  | .operator => { c with operators := depth }

end Cursor

namespace Walk

variable {α : Type} (ts : List Token)

def note (move : Move) : Walk Unit :=
  modify (·.note move)

/-- Passes a token without a look at it. -/
def pass : Walk Unit :=
  modify Cursor.passed

def peek? : Walk (Option Token) := do
  return ts[(← get).position]?

/-- The line that the cursor is on: at the end that of the last token. -/
def line : Walk Nat := do
  return ((← peek? ts).or ts.getLast?).elim 1 (·.span.line)

def refuse (e : SyntaxError) : Walk α :=
  throw (.error e)

def refuseToken (expected : Expectation) : Walk α := do
  refuse (unexpected (lastSpan ts) expected (ts.drop (← get).position))

def expect (kind : TokenKind) (expected : Expectation) : Walk Unit := do
  if (← peek? ts).map Token.kind = some kind then pass else refuseToken ts expected

def passWhile (p : Token → Bool) : Nat → Walk Unit
  | 0 => throw .outOfFuel
  | fuel + 1 => do
    if (← peek? ts).any p then
      pass
      passWhile p fuel

def lexemesSince (start : Nat) : Walk String := do
  let stop := (← get).position
  if start ≤ stop ∧ stop ≤ ts.length then return Directive.lexemes ((ts.take stop).drop start)
  else throw .outOfRange

/-- Walks through a part of what is read. -/
def part (m : Walk α) : Walk α := fun c =>
  match m (c.note .enter) with
  | .ok a c => .ok a (c.note .leave)
  | .error halt c => .error halt (c.note .leave)

def deeper (nesting : Nesting) (line : Nat) (m : Walk α) : Walk α := fun c =>
  if c.depth nesting = maxNesting then .error (.error (.tooDeep line)) c
  else
    match m ((c.setDepth (c.depth nesting + 1) nesting).note .descend) with
    | .ok a c' => .ok a (c'.setDepth (c.depth nesting) nesting)
    | .error halt c' => .error halt (c'.setDepth (c.depth nesting) nesting)

end Walk

/-! ## Histories -/

/-- The parts in a history are whole: each is left with as many blocks and operators open as it was entered
with, and with a token passed before the walk goes deeper in it. -/
inductive Whole : List Moment → Prop where
  | nil : Whole []
  | cons {m : Moment} {ms : List Moment} : m.move ≠ .enter → m.move ≠ .leave → Whole ms → Whole (m :: ms)
  | part {first last : Moment} {inner ms : List Moment} : first.move = .enter → last.move = .leave →
      last.blocks = first.blocks → last.operators = first.operators →
      (∀ m ∈ inner, m.move = .descend → first.position < m.position) → Whole inner → Whole ms →
      Whole (first :: (inner ++ last :: ms))

theorem Whole.append {ms ns : List Moment} (h : Whole ms) (h' : Whole ns) : Whole (ms ++ ns) := by
  induction h with
  | nil => exact h'
  | cons he hl _ ih => exact .cons he hl ih
  | part hf hl hb ho hd hi _ _ ih =>
    rw [List.cons_append, List.append_assoc, List.cons_append]
    exact .part hf hl hb ho hd hi ih

/-- The place of a line or a descent in their order. The line that a descent leads to begins where the descent
was made, and comes after it. -/
def Moment.rank? (m : Moment) : Option Nat :=
  match m.move with
  | .descend => some (2 * m.position)
  | .line => some (2 * m.position + 1)
  | .pass | .enter | .leave => none

/-- A stretch of a history over `n` tokens: its lines and descents ascend, from the rank `lo` to below
`hi`. -/
structure Stretch (n lo hi : Nat) (ms : List Moment) : Prop where
  inside : ∀ m ∈ ms, m.position ≤ n
  ascending : (ms.filterMap Moment.rank?).Pairwise (· < ·)
  bounds : ∀ r ∈ ms.filterMap Moment.rank?, lo ≤ r ∧ r < hi
  whole : Whole ms

namespace Stretch

variable {n lo mid hi lo' hi' : Nat} {ms ns : List Moment} {m : Moment}

theorem nil : Stretch n lo hi [] :=
  ⟨nofun, .nil, nofun, .nil⟩

theorem append (h : Stretch n lo mid ms) (h' : Stretch n mid hi ns) (hlo : lo ≤ mid) (hhi : mid ≤ hi) :
    Stretch n lo hi (ms ++ ns) where
  inside := List.forall_mem_append.mpr ⟨h.inside, h'.inside⟩
  ascending := by
    rw [List.filterMap_append, List.pairwise_append]
    exact ⟨h.ascending, h'.ascending,
      fun r hr r' hr' => Nat.lt_of_lt_of_le (h.bounds r hr).2 (h'.bounds r' hr').1⟩
  bounds := by
    rw [List.filterMap_append, List.forall_mem_append]
    exact ⟨fun r hr => ⟨(h.bounds r hr).1, Nat.lt_of_lt_of_le (h.bounds r hr).2 hhi⟩,
      fun r hr => ⟨Nat.le_trans hlo (h'.bounds r hr).1, (h'.bounds r hr).2⟩⟩
  whole := h.whole.append h'.whole

theorem mono (h : Stretch n lo hi ms) (hlo : lo' ≤ lo) (hhi : hi ≤ hi') : Stretch n lo' hi' ms :=
  ⟨h.inside, h.ascending,
    fun r hr => ⟨Nat.le_trans hlo (h.bounds r hr).1, Nat.lt_of_lt_of_le (h.bounds r hr).2 hhi⟩, h.whole⟩

theorem pass (hm : m.move = .pass) (hn : m.position ≤ n) : Stretch n lo hi [m] where
  inside := List.forall_mem_singleton.mpr hn
  ascending := by simp [Moment.rank?, hm]
  bounds := by simp [Moment.rank?, hm]
  whole := .cons (by simp [hm]) (by simp [hm]) .nil

theorem line (hm : m.move = .line) (hn : m.position ≤ n) :
    Stretch n (2 * m.position + 1) (2 * m.position + 2) [m] where
  inside := List.forall_mem_singleton.mpr hn
  ascending := by simp [Moment.rank?, hm]
  bounds := by simp [Moment.rank?, hm]
  whole := .cons (by simp [hm]) (by simp [hm]) .nil

theorem descend (hm : m.move = .descend) (hn : m.position ≤ n) :
    Stretch n (2 * m.position) (2 * m.position + 1) [m] where
  inside := List.forall_mem_singleton.mpr hn
  ascending := by simp [Moment.rank?, hm]
  bounds := by simp [Moment.rank?, hm]
  whole := .cons (by simp [hm]) (by simp [hm]) .nil

theorem part {first last : Moment} (h : Stretch n lo hi ms) (hf : first.move = .enter)
    (hl : last.move = .leave) (hb : last.blocks = first.blocks) (ho : last.operators = first.operators)
    (hfirst : first.position ≤ n) (hlast : last.position ≤ n) (hlo : 2 * first.position < lo) :
    Stretch n lo hi (first :: (ms ++ [last])) := by
  have hranks : (first :: (ms ++ [last])).filterMap Moment.rank? = ms.filterMap Moment.rank? := by
    simp [Moment.rank?, hf, hl]
  refine ⟨?_, hranks ▸ h.ascending, hranks ▸ h.bounds, .part hf hl hb ho ?_ h.whole .nil⟩
  · rw [List.forall_mem_cons, List.forall_mem_append, List.forall_mem_singleton]
    exact ⟨hfirst, h.inside, hlast⟩
  · intro m hm hdescend
    have hrank : 2 * m.position ∈ ms.filterMap Moment.rank? :=
      List.mem_filterMap.mpr ⟨m, hm, by rw [Moment.rank?, hdescend]⟩
    have hle := (h.bounds _ hrank).1
    omega

end Stretch
end Pseudocode
