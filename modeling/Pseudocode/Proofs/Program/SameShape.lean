import Pseudocode.Proofs.Decimal.Comparison
import Pseudocode.Proofs.Program.Expressions
import Pseudocode.Proofs.Program.Targets

/-! # Programs of the same shape

Numerals in a source have no sign, so decimals that compare as equal are the same in programs that were read.
The instructions of two such programs of the same shape are therefore the same but for their lines. Their
directives are the same but for their lines and for numbers that compare as equal.
-/

namespace Pseudocode

variable {ts : List Token} {source source' : String} {p q : Program}

/-! ## Decimals in a source -/

theorem Lexer.unsigned_of_front {c : Char} {cs : List Char} {n : Nat} {d : Float}
    (h : front c cs = .ok (.decimal d, n)) : Decimal.Unsigned d := by
  rcases front_cases h with ⟨hc, h⟩ | ⟨-, h⟩ | ⟨-, h⟩ | ⟨-, h⟩ | h
  · rcases number_cases h with ⟨i, hk, -⟩ | ⟨d', hk, hd⟩
    · cases hk
    · cases hk
      exact Decimal.unsigned_of_parseFloat? hc hd
  · obtain ⟨body, hk, -⟩ := text_cases h
    cases hk
  · rcases (word_cases h).2 with ⟨w, hk⟩ | ⟨name, hk, -⟩ <;> cases hk
  · cases h
  · rcases symbol?_cases h with hk | ⟨s, hk⟩ <;> cases hk

theorem Lexer.Spells.unsigned {cs : List Char} {ks : List TokenKind} (h : Spells cs ks) :
    ∀ d, .decimal d ∈ ks → Decimal.Unsigned d := by
  intro d hd
  induction h with
  | endOfInput => cases List.mem_singleton.mp hd
  | blank _ _ ih => exact ih hd
  | comment _ _ _ ih => exact ih hd
  | token _ _ hf _ ih =>
    rcases List.mem_cons.mp hd with rfl | hd
    · exact unsigned_of_front hf
    · exact ih hd

def Value.Unsigned : Value → Prop
  | .decimal d => Decimal.Unsigned d
  | .integer _ | .boolean _ | .text _ => True

def Expr.Unsigned : Expr → Prop
  | .literal v => v.Unsigned
  | .var _ => True
  | .unary _ e => e.Unsigned
  | .binary l _ r => l.Unsigned ∧ r.Unsigned

theorem Phrase.Grammatical.unsigned {d : Phrase} (h : d.Grammatical)
    (ht : ∀ t ∈ d.tokens, ∀ x, t.kind = .decimal x → Decimal.Unsigned x) : d.expr.Unsigned := by
  induction d with
  | atom t e =>
    obtain ⟨v, hk, rfl⟩ | ⟨x, hk, rfl⟩ := Expr.ofToken?_cases h
    · cases v with
      | decimal x => exact ht t List.mem_cons_self x hk
      | _ => trivial
    · trivial
  | unary t op d ih => exact ih h.2.2 fun u hu => ht u (List.mem_cons_of_mem t hu)
  | group o d c ih =>
    exact ih h.2.2 fun u hu => ht u (List.mem_cons_of_mem o (List.mem_append_left [c] hu))
  | binary l t op r ihl ihr =>
    obtain ⟨-, -, -, hl, hr⟩ := h
    exact ⟨ihl hl fun u hu => ht u (List.mem_append_left _ hu),
      ihr hr fun u hu => ht u (List.mem_append_right _ (List.mem_cons_of_mem t hu))⟩

theorem Expr.Spelled.unsigned {e : Expr} (hts : Token.ofSource source = .ok ts)
    (h : e.Spelled ts) : e.Unsigned := by
  obtain ⟨d, rfl, hg, -, ht⟩ := h
  refine hg.unsigned fun t hmem x hx => (Lexer.spells_of_ofSource hts).unsigned x ?_
  rw [← hx]
  exact List.mem_map_of_mem (ht t hmem)

theorem Value.Unsigned.eq {v w : Value} (hv : v.Unsigned) (hw : w.Unsigned) (h : v.same w) :
    v = w := by
  unfold Value.same at h
  split at h
  case h_1 => rw [Decimal.Unsigned.eq hv hw h]
  case h_2 => exact of_decide_eq_true h

theorem Expr.Unsigned.eq {e e' : Expr} (he : e.Unsigned) (he' : e'.Unsigned) (h : e.same e') :
    e = e' := by
  fun_induction Expr.same e e' with
  | case1 v w => rw [Value.Unsigned.eq he he' h]
  | case2 x y => rw [of_decide_eq_true h]
  | case3 op e op' e' ih =>
    rw [Bool.and_eq_true] at h
    rw [of_decide_eq_true h.1, ih he he' h.2]
  | case4 l op r l' op' r' ihl ihr =>
    rw [Bool.and_eq_true, Bool.and_eq_true] at h
    rw [of_decide_eq_true h.1.1, ihl he.1 he'.1 h.1.2, ihr he.2 he'.2 h.2]
  | case5 => cases h

/-! ## Instructions without their lines -/

namespace Instruction

mutual

def unlined : Instruction → Instruction
  | ⟨kind, argument, argumentExpr, value, body, otherwise, _⟩ =>
    ⟨kind, argument, argumentExpr, value, unlinedBlock body, unlinedBlock otherwise, 0⟩

def unlinedBlock : Option (List Instruction) → Option (List Instruction)
  | none => none
  | some is => some (unlinedSequence is)

def unlinedSequence : List Instruction → List Instruction
  | [] => []
  | i :: is => i.unlined :: unlinedSequence is

end

def Unsigned (i : Instruction) : Prop :=
  i.Everywhere fun i => ∀ e ∈ i.expressions, e.Unsigned

theorem eq_of_sameExpr {e e' : Option Expr} (he : ∀ a ∈ e, a.Unsigned) (he' : ∀ a ∈ e', a.Unsigned)
    (h : sameExpr e e') : e = e' := by
  unfold sameExpr at h
  split at h
  case h_1 => rfl
  case h_2 a a' => rw [Expr.Unsigned.eq (he a rfl) (he' a' rfl) h]
  case h_3 => cases h

mutual

theorem unlined_eq_of_sameShape : ∀ {i j : Instruction}, i.Unsigned → j.Unsigned → i.sameShape j →
    i.unlined = j.unlined
  | ⟨kind, argument, argumentExpr, value, body, otherwise, line⟩,
      ⟨kind', argument', argumentExpr', value', body', otherwise', line'⟩, hi, hj, h => by
    simp only [sameShape, Bool.and_eq_true, decide_eq_true_eq] at h
    obtain ⟨⟨⟨⟨⟨rfl, rfl⟩, ha⟩, hv⟩, hb⟩, ho⟩ := h
    have hei := hi.self
    have hej := hj.self
    have hci := hi.children
    have hcj := hj.children
    simp only [expressions, List.forall_mem_append, Option.mem_toList] at hei hej
    simp only [children, List.forall_mem_append] at hci hcj
    rw [unlined, unlined, eq_of_sameExpr hei.1 hej.1 ha, eq_of_sameExpr hei.2 hej.2 hv,
      unlinedBlock_eq_of_sameBlock hci.1 hcj.1 hb, unlinedBlock_eq_of_sameBlock hci.2 hcj.2 ho]

theorem unlinedBlock_eq_of_sameBlock : ∀ {b c : Option (List Instruction)},
    (∀ i ∈ b.getD [], i.Unsigned) → (∀ j ∈ c.getD [], j.Unsigned) → sameBlock b c →
    unlinedBlock b = unlinedBlock c
  | none, none, _, _, _ => rfl
  | some _, some _, hi, hj, h => congrArg some (unlinedSequence_eq_of_sameSequence hi hj h)

theorem unlinedSequence_eq_of_sameSequence : ∀ {is js : List Instruction}, (∀ i ∈ is, i.Unsigned) →
    (∀ j ∈ js, j.Unsigned) → sameSequence is js → unlinedSequence is = unlinedSequence js
  | [], [], _, _, _ => rfl
  | i :: is, j :: js, hi, hj, h => by
    rw [List.forall_mem_cons] at hi hj
    rw [sameSequence, Bool.and_eq_true] at h
    rw [unlinedSequence, unlinedSequence, unlined_eq_of_sameShape hi.1 hj.1 h.1,
      unlinedSequence_eq_of_sameSequence hi.2 hj.2 h.2]

end

theorem unlinedSequence_eq (is : List Instruction) : unlinedSequence is = is.map unlined := by
  induction is with
  | nil => rfl
  | cons i is ih => rw [unlinedSequence, ih, List.map_cons]

theorem unlinedBlock_eq (b : Option (List Instruction)) : unlinedBlock b = b.map (List.map unlined) := by
  cases b with
  | none => rfl
  | some is => rw [unlinedBlock, unlinedSequence_eq, Option.map_some]

@[simp] theorem unlined_kind (i : Instruction) : i.unlined.kind = i.kind := by
  cases i
  rfl

@[simp] theorem unlined_argument (i : Instruction) : i.unlined.argument = i.argument := by
  cases i
  rfl

@[simp] theorem unlined_argumentExpr (i : Instruction) : i.unlined.argumentExpr = i.argumentExpr := by
  cases i
  rfl

@[simp] theorem unlined_value (i : Instruction) : i.unlined.value = i.value := by
  cases i
  rfl

@[simp] theorem unlined_body (i : Instruction) : i.unlined.body = i.body.map (List.map unlined) := by
  cases i
  exact unlinedBlock_eq _

@[simp] theorem unlined_otherwise (i : Instruction) :
    i.unlined.otherwise = i.otherwise.map (List.map unlined) := by
  cases i
  exact unlinedBlock_eq _

end Instruction

/-! ## Directives that are the same -/

/-- A zero is written without its sign, so numbers that compare as equal are written the same. -/
theorem DirectiveValue.renderNumber_of_beq {a b : Float} (h : (a == b) = true) :
    renderNumber a = renderNumber b := by
  rcases Decimal.eq_or_zero_of_beq h with rfl | ⟨s, s', ha, hb⟩
  · rfl
  · simp only [renderNumber, Decimal.denote, ha, hb]
    cases s <;> cases s' <;> rfl

theorem DirectiveValue.render_of_same {v w : DirectiveValue} (h : v.same w) :
    v.render = w.render := by
  unfold same at h
  split at h
  case h_1 =>
    rw [Bool.and_eq_true, Bool.and_eq_true] at h
    rw [render, render, renderNumber_of_beq h.1.1, renderNumber_of_beq h.1.2, renderNumber_of_beq h.2]
  case h_2 => exact renderNumber_of_beq h
  case h_3 => rw [of_decide_eq_true h]

theorem Directive.same_iff {d e : Directive} :
    d.same e ↔ d.kind = e.kind ∧ d.value.same e.value ∧ d.index = e.index := by
  simp [same, and_assoc]

abbrev SameDirectives (ds es : List Directive) : Prop :=
  List.Forall₂ (fun d e => d.same e) ds es

theorem SameDirectives.filter {ds es : List Directive} (h : SameDirectives ds es)
    {test : Directive → Bool} (htest : ∀ d e : Directive, d.same e → test d = test e) :
    SameDirectives (ds.filter test) (es.filter test) :=
  List.rel_filter (fun d e hde => iff_of_eq (congrArg (· = true) (htest d e hde))) h

theorem Directive.target?_of_same {d e : Directive} (h : d.same e) : d.target? = e.target? := by
  rw [target?_eq, target?_eq, (same_iff.mp h).2.2]

theorem Directive.appliesTo_of_same {d e : Directive} (h : d.same e) (k : InstructionKind) :
    d.kind.appliesTo k = e.kind.appliesTo k := by
  rw [(same_iff.mp h).1]

/-! ## Styles that are the same -/

def Style.sameFigure : Option (Float × Float × Float) → Option (Float × Float × Float) → Bool
  | none, none => true
  | some (a, b, c), some (a', b', c') => a == a' && b == b' && c == c'
  | _, _ => false

structure Style.Same (s t : Style) : Prop where
  color : s.color = t.color
  textColor : s.textColor = t.textColor
  figure : sameFigure s.figure t.figure
  font : s.font = t.font
  fontSize : (s.fontSize == t.fontSize) = true
  extras : s.extras = t.extras

namespace Style.Same

variable {s t : Style} {d e : Directive}

theorem default : Style.default.Same .default :=
  ⟨rfl, rfl, rfl, rfl, by decide, rfl⟩

theorem setExtra (h : s.Same t) {value value' : String} (hvalue : value = value') (name : String) :
    Style.Same { s with extras := s.extras.insert name value }
      { t with extras := t.extras.insert name value' } :=
  { h with extras := by rw [h.extras, hvalue] }

theorem apply (h : s.Same t) (hd : d.same e) : (s.apply d).Same (t.apply e) := by
  obtain ⟨kind, value, index, line⟩ := d
  obtain ⟨kind', value', index', line'⟩ := e
  obtain ⟨rfl, hvalue, -⟩ := Directive.same_iff.mp hd
  have hextra := h.setExtra (DirectiveValue.render_of_same hvalue) kind.name
  replace hvalue : value.same value' := hvalue
  unfold DirectiveValue.same at hvalue
  split at hvalue
  case h_1 a b c a' b' c' =>
    rcases kind with ⟨_ | _ | _ | _ | _, category⟩ | name
    case style.figure => exact { h with figure := hvalue }
    all_goals exact hextra
  case h_2 size size' =>
    rcases kind with ⟨_ | _ | _ | _ | _, category⟩ | name
    case style.fontSize => exact { h with fontSize := hvalue }
    all_goals exact hextra
  case h_3 htriple hsize =>
    obtain rfl := of_decide_eq_true hvalue
    cases value with
    | hexColor hex =>
      rcases kind with ⟨_ | _ | _ | _ | _, category⟩ | name
      case style.color => exact { h with color := rfl }
      case style.textColor => exact { h with textColor := rfl }
      all_goals exact hextra
    | font font =>
      rcases kind with ⟨_ | _ | _ | _ | _, category⟩ | name
      case style.font => exact { h with font := rfl }
      all_goals exact hextra
    | raw s => rcases kind with ⟨_ | _ | _ | _ | _, category⟩ | name <;> exact hextra
    | triple a b c => exact (htriple _ _ _ _ _ _ rfl rfl).elim
    | size size => exact (hsize _ _ rfl rfl).elim

theorem resolve {ds es : List Directive} (h : SameDirectives ds es) (k : InstructionKind) :
    (Style.resolve ds k).Same (Style.resolve es k) := by
  have hfilter := h.filter fun d e hde => Directive.appliesTo_of_same hde k
  exact List.rel_foldl (P := Style.Same) (R := fun d e : Directive => d.same e)
    (fun _ _ hs _ _ hd => hs.apply hd) default hfilter

end Style.Same

namespace Program

/-- The programs are the same but for lines and for numbers in directives that compare as equal. -/
structure Mirrors (p q : Program) : Prop where
  instructions : p.instructions.map Instruction.unlined = q.instructions.map Instruction.unlined
  directives : SameDirectives p.directives q.directives

theorem unsigned_of_ofSource (h : Program.ofSource source = .ok p) :
    ∀ i ∈ p.instructions, i.Unsigned := by
  obtain ⟨ts, hts, hspelled⟩ := spelled_of_ofSource h
  intro i hi
  exact (hspelled i hi).mono fun j hj e he => (hj e he).unsigned hts

theorem mirrors_of_sameShape (hp : Program.ofSource source = .ok p)
    (hq : Program.ofSource source' = .ok q) (h : p.sameShape q) : p.Mirrors q := by
  rw [sameShape, Bool.and_eq_true, Bool.and_eq_true, beq_iff_eq] at h
  obtain ⟨⟨hinstructions, hlength⟩, hdirectives⟩ := h
  constructor
  · have heq := Instruction.unlinedSequence_eq_of_sameSequence (unsigned_of_ofSource hp)
      (unsigned_of_ofSource hq) hinstructions
    rwa [Instruction.unlinedSequence_eq, Instruction.unlinedSequence_eq] at heq
  · refine List.forall₂_iff_zip.mpr ⟨hlength, fun {d e} hmem => ?_⟩
    exact List.all_eq_true.mp hdirectives (d, e) hmem

namespace Mirrors

variable (h : p.Mirrors q)

include h

theorem globals : SameDirectives p.globals q.globals := by
  rw [globals_eq_filter, globals_eq_filter]
  exact h.directives.filter fun d e hde => by rw [Directive.target?_of_same hde]

theorem aimedAt (path : Path) : SameDirectives (p.aimedAt path) (q.aimedAt path) := by
  rw [aimedAt_eq_filter, aimedAt_eq_filter]
  exact h.directives.filter fun d e hde => by rw [Directive.target?_of_same hde]

theorem style (path : Path) (k : InstructionKind) : (p.style path k).Same (q.style path k) :=
  .resolve (List.rel_append h.globals (h.aimedAt path)) k

end Mirrors

end Program
end Pseudocode
