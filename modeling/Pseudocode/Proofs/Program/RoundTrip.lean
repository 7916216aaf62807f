import Mathlib
import Pseudocode.Program.Source
import Pseudocode.Proofs.Program.Validity

/-! # Programs printed and read again

The text of a program that was read, if it is without directives, is read as a program of the same
shape, and this one has the same text.
-/

namespace Pseudocode

variable {n : Nat} {ts : List Token} {source : String} {p : Program}

/-! ## What is read is valid -/

theorem Expr.IsName.isWord {x : String} (h : Expr.IsName x) : Text.isWord x.toList :=
  (Expr.isName_iff.1 h).1

theorem Instruction.Printable.valid {i : Instruction} (h : i.Printable n) : i.Valid n := by
  induction h with
  | assign line hx he => exact .assign _ line hx.isWord
  | display line he => exact .display _ line
  | input line hx => exact .input line hx.isWord
  | branch line he _ ih => exact .branch _ line ih
  | branchElse line he _ _ ih ih' => exact .branchElse _ line ih ih'
  | loop line he _ ih => exact .loop _ line ih

/-! ## From the source to the program -/

theorem Except.mapError_eq_ok_iff {ε ε' α : Type} {x : Except ε α} {f : ε → ε'} {a : α} :
    x.mapError f = .ok a ↔ x = .ok a := by
  cases x <;> simp [Except.mapError]

namespace Program

theorem ofParts_eq_ok_iff {is : List Instruction} {ds : List Directive} :
    ofParts is ds = .ok p ↔ p.instructions = is ∧ p.directives = ds := by
  constructor
  · intro h
    unfold ofParts at h
    split at h
    case h_1 => cases h
    case h_2 =>
      split at h
      case h_1 => cases h
      case h_2 =>
        obtain rfl := Except.ok.inj h
        exact ⟨rfl, rfl⟩
  · rintro ⟨rfl, rfl⟩
    unfold ofParts
    split
    case h_1 e he => cases p.instructions_valid.symm.trans he
    case h_2 =>
      split
      case h_1 e he => cases p.directives_valid.symm.trans he
      case h_2 targets hd =>
        obtain rfl := Except.ok.inj (p.directives_valid.symm.trans hd)
        rfl

theorem ofSource_eq_ok_iff : Program.ofSource source = .ok p ↔ ∃ ts c,
    Token.ofSource source = .ok ts ∧ Content.ofTokens ts = .ok c ∧
      p.instructions = c.instructions ∧ p.directives = c.directives := by
  simp only [Program.ofSource, Except.bind_eq_ok_iff, Except.mapError_eq_ok_iff, ofParts_eq_ok_iff]
  constructor
  · rintro ⟨ts, hts, c, hc, hp⟩
    exact ⟨ts, c, hts, hc, hp⟩
  · rintro ⟨ts, c, hts, hc, hp⟩
    exact ⟨ts, hts, c, hc, hp⟩

theorem exists_ofSource_renderSequence {is : List Instruction}
    (h : ∀ i ∈ is, i.Printable maxNesting) :
    ∃ q, Program.ofSource (Instruction.renderSequence 0 is) = .ok q ∧ q.directives = [] ∧
      Instruction.AlikeAll maxNesting is q.instructions := by
  obtain ⟨ks, hks⟩ := Instruction.exists_printsAll fun i hi => (h i hi).exists_prints
  have hspells := hks.spells 0 [] [.endOfInput] .endOfInput
  rw [List.append_nil] at hspells
  obtain ⟨ts, hts, hkinds⟩ := Lexer.ofSource_eq_ok_iff.2 hspells
  obtain ⟨us, vs, rfl, hus, hvs⟩ := List.map_eq_append_iff.1 hkinds
  obtain ⟨t, rfl, ht⟩ := List.map_eq_singleton_iff.1 hvs
  obtain ⟨b, js, rfl, hb, hall⟩ := hks.reread us hus
  have hderives : b.Derives (b.tokens ++ [t]).dropLast :=
    ⟨hb.grammatical True, by rw [List.dropLast_concat], hb.depth, hb.nesting⟩
  have hcontent := (Content.ofTokens_eq_ok_iff_exists hts).2 ⟨b, hderives, rfl⟩
  have hvalid : ∀ i ∈ js, i.Valid maxNesting := fun i hi => (hall.printable i hi).valid
  refine ⟨⟨js, [], [], checkInstructions_eq_none hvalid, rfl⟩, ?_, rfl, hall⟩
  exact ofSource_eq_ok_iff.2 ⟨_, _, hts, hcontent, hb.instructions.symm, hb.directives.symm⟩

/-- A source without directives and with finite decimals becomes instructions that have a text. -/
theorem printable_of_ofSource (hts : Token.ofSource source = .ok ts)
    (hp : Program.ofSource source = .ok p) (hd : ∀ t ∈ ts, t.kind ≠ .directive)
    (hf : ∀ t ∈ ts, ∀ d, t.kind = .decimal d → Decimal.isFinite d) :
    p.directives = [] ∧ ∀ i ∈ p.instructions, i.Printable maxNesting := by
  obtain ⟨ts', c, hts', hc, hi, hds⟩ := ofSource_eq_ok_iff.1 hp
  obtain rfl := Except.ok.inj (hts.symm.trans hts')
  obtain ⟨b, hb, rfl⟩ := (Content.ofTokens_eq_ok_iff_exists hts).1 hc
  have hmem : ∀ t ∈ b.tokens, t ∈ ts := fun t ht => List.mem_of_mem_dropLast (hb.tokens ▸ ht)
  have hplain : ∀ t ∈ b.tokens, Lexer.Plain t.kind := fun t ht =>
    (Lexer.spells_of_ofSource hts).plain t.kind (List.mem_map_of_mem (hmem t ht)) (hf t (hmem t ht))
  rw [hi, hds]
  exact ⟨Block.directives_eq_nil b hb.grammatical fun t ht => hd t (hmem t ht),
    Block.printable b maxNesting hb.grammatical hb.depth hb.nesting hplain⟩

/-- A source without directives whose decimals are finite becomes a program, and the text of the
program becomes one of the same shape and with the same text. -/
theorem ofSource_render (hts : Token.ofSource source = .ok ts)
    (hp : Program.ofSource source = .ok p) (hd : ∀ t ∈ ts, t.kind ≠ .directive)
    (hf : ∀ t ∈ ts, ∀ d, t.kind = .decimal d → Decimal.isFinite d) :
    ∃ q, Program.ofSource p.render = .ok q ∧ p.sameShape q ∧ q.render = p.render := by
  obtain ⟨hnil, hprintable⟩ := printable_of_ofSource hts hp hd hf
  obtain ⟨q, hq, hqnil, hall⟩ := exists_ofSource_renderSequence hprintable
  have hrender (r : Program) (hr : r.directives = []) :
      r.render = Instruction.renderSequence 0 r.instructions := by
    rw [render, hr]
    rfl
  refine ⟨q, ?_, ?_, ?_⟩
  · rwa [hrender p hnil]
  · rw [sameShape, hall.same, hnil, hqnil]
    rfl
  · rw [hrender p hnil, hrender q hqnil, hall.render]

theorem ofSource_render_half : ∃ ts p, Token.ofSource "x = 0.5\nMOSTRAR x" = .ok ts ∧
    Program.ofSource "x = 0.5\nMOSTRAR x" = .ok p ∧ (∀ t ∈ ts, t.kind ≠ .directive) ∧
      (∀ t ∈ ts, ∀ d, t.kind = .decimal d → Decimal.isFinite d) ∧
      ∃ q, Program.ofSource p.render = .ok q ∧ p.sameShape q ∧ q.render = p.render := by
  have hts : Token.ofSource "x = 0.5\nMOSTRAR x" = .ok [
      ⟨.identifier "x", "x", ⟨1, 1, 0, 1⟩⟩, ⟨.symbol .equal, "=", ⟨1, 3, 2, 3⟩⟩,
      ⟨.decimal 0.5, "0.5", ⟨1, 5, 4, 7⟩⟩, ⟨.newline, "\n", ⟨1, 8, 7, 8⟩⟩,
      ⟨.keyword .mostrar, "MOSTRAR", ⟨2, 1, 8, 15⟩⟩, ⟨.identifier "x", "x", ⟨2, 9, 16, 17⟩⟩,
      ⟨.endOfInput, "", ⟨2, 10, 17, 17⟩⟩] := by
    decide +kernel
  have hcontent (d : Float) : Content.ofTokens [
      ⟨.identifier "x", "x", ⟨1, 1, 0, 1⟩⟩, ⟨.symbol .equal, "=", ⟨1, 3, 2, 3⟩⟩,
      ⟨.decimal d, "0.5", ⟨1, 5, 4, 7⟩⟩, ⟨.newline, "\n", ⟨1, 8, 7, 8⟩⟩,
      ⟨.keyword .mostrar, "MOSTRAR", ⟨2, 1, 8, 15⟩⟩, ⟨.identifier "x", "x", ⟨2, 9, 16, 17⟩⟩,
      ⟨.endOfInput, "", ⟨2, 10, 17, 17⟩⟩] =
        .ok ⟨[.assign "x" (.literal (.decimal d)) 1, .display (.var "x") 2], []⟩ := by
    cbv
  have hvalid : checkInstructions [.assign "x" (.literal (.decimal 0.5)) 1, .display (.var "x") 2] =
      none := by
    decide +kernel
  have hp : Program.ofSource "x = 0.5\nMOSTRAR x" = .ok ⟨_, [], [], hvalid, rfl⟩ :=
    ofSource_eq_ok_iff.2 ⟨_, _, hts, hcontent 0.5, rfl, rfl⟩
  have hfinite : Decimal.isFinite 0.5 := by decide +kernel
  refine ⟨_, _, hts, hp, ?_, ?_, ofSource_render hts hp ?_ ?_⟩
  all_goals simp [hfinite]

end Program
end Pseudocode
