import Pseudocode.Syntax.Reading

/-! # What a reading takes

A reading also proves that it takes something. Statements about readings are about the value and the
tokens that are left alone, and sequencing is opened by one lemma.
-/

namespace Pseudocode

variable {α β : Type} {t : Token} {ts us rest : List Token} {a : α} {b : β}

theorem Except.bind_eq_ok_iff {ε : Type} {x : Except ε α} {f : α → Except ε β} :
    (x >>= f) = .ok b ↔ ∃ a, x = .ok a ∧ f a = .ok b := by
  constructor
  · intro h
    cases x with
    | error e => cases h
    | ok a => exact ⟨a, rfl, h⟩
  · rintro ⟨a, rfl, h⟩
    exact h

/-- A reading of `ts` gives `a` and leaves `rest`. -/
def Reads (x : Except SyntaxError (Parsed α ts)) (a : α) (rest : List Token) : Prop :=
  ∃ h, x = .ok ⟨a, rest, h⟩

@[simp] theorem reads_ok {p : Parsed α ts} :
    Reads (.ok p) a rest ↔ p.value = a ∧ p.rest = rest := by
  constructor
  · rintro ⟨h, hp⟩
    cases hp
    exact ⟨rfl, rfl⟩
  · rintro ⟨rfl, rfl⟩
    exact ⟨p.shorter, rfl⟩

@[simp] theorem reads_error {e : SyntaxError} :
    ¬ Reads (.error e : Except SyntaxError (Parsed α ts)) a rest := by
  rintro ⟨_, h⟩
  cases h

theorem Reads.shorter {x : Except SyntaxError (Parsed α ts)} (h : Reads x a rest) :
    rest.length < ts.length := by
  obtain ⟨h, -⟩ := h
  exact h

theorem Reads.unique {x : Except SyntaxError (Parsed α ts)} {a' : α} {rest' : List Token}
    (h : Reads x a rest) (h' : Reads x a' rest') : a = a' ∧ rest = rest' := by
  obtain ⟨_, rfl⟩ := h
  obtain ⟨rfl, rfl⟩ := reads_ok.mp h'
  exact ⟨rfl, rfl⟩

theorem reads_bind {x : Except SyntaxError (Parsed α ts)}
    {f : Parsed α ts → Except SyntaxError (Parsed β us)} :
    Reads (x >>= f) b rest ↔ ∃ p, x = .ok p ∧ Reads (f p) b rest := by
  constructor
  · rintro ⟨h, hx⟩
    obtain ⟨p, hp, hf⟩ := Except.bind_eq_ok_iff.mp hx
    exact ⟨p, hp, h, hf⟩
  · rintro ⟨p, rfl, h, hf⟩
    exact ⟨h, hf⟩

theorem reads_of_eq {x : Except SyntaxError (Parsed α ts)} {p : Parsed α ts} (h : x = .ok p) :
    Reads x p.value p.rest :=
  ⟨p.shorter, h⟩

theorem reads_seq {γ : Type} {x : Except SyntaxError (Parsed α ts)} {y : Reading β}
    {f : α → β → γ} {c : γ} :
    Reads (x >>= fun p => y p.rest >>= fun q =>
      .ok ((p.followedBy q).map fun _ => f p.value q.value)) c rest ↔
      ∃ a us b, Reads x a us ∧ Reads (y us) b rest ∧ f a b = c := by
  rw [reads_bind]
  constructor
  · rintro ⟨p, hp, h⟩
    obtain ⟨q, hq, h⟩ := reads_bind.mp h
    obtain ⟨rfl, rfl⟩ := reads_ok.mp h
    exact ⟨_, _, _, reads_of_eq hp, reads_of_eq hq, rfl⟩
  · rintro ⟨a, us, b, ⟨hlt, hx⟩, ⟨hlt', hy⟩, rfl⟩
    exact ⟨_, hx, reads_bind.mpr ⟨_, hy, reads_ok.mpr ⟨rfl, rfl⟩⟩⟩

theorem reads_map {x : Except SyntaxError (Parsed α ts)} {f : Parsed α ts → Parsed β us} :
    Reads (x.map f) b rest ↔ ∃ p, x = .ok p ∧ (f p).value = b ∧ (f p).rest = rest := by
  cases x with
  | error e => simp [Except.map]
  | ok p => simp [Except.map]

theorem reads_map_ofTail {x : Except SyntaxError (Parsed α ts)} :
    Reads (x.map (Parsed.ofTail (t := t))) a rest ↔ Reads x a rest := by
  cases x with
  | error e => simp [Except.map]
  | ok p => simp [Except.map, Parsed.ofTail]

theorem reads_expect {final : Span} {kind : TokenKind} {expected : Expectation} {u : Unit} :
    Reads (expect final kind expected ts) u rest ↔ ∃ t, t.kind = kind ∧ ts = t :: rest := by
  cases ts with
  | nil => simp [expect]
  | cons t ts =>
    rw [expect]
    split
    case isTrue h =>
      rw [reads_ok]
      constructor
      · rintro ⟨-, rfl⟩
        exact ⟨t, h, rfl⟩
      · rintro ⟨_, -, heq⟩
        exact ⟨rfl, (List.cons.inj heq).2⟩
    case isFalse h =>
      refine ⟨fun hr => (reads_error hr).elim, ?_⟩
      rintro ⟨_, hu, heq⟩
      exact absurd ((List.cons.inj heq).1 ▸ hu) h

end Pseudocode
