import Pseudocode.Program
import Pseudocode.Proofs.Instruction.Acceptance
import Pseudocode.Proofs.Instruction.Printing

/-! # What is read makes sense

Reading a source builds trees that validation has nothing to say against: it bounds nesting as reading
does, the text of an argument is that of its expression, and a directive has a value of the shape that
its kind demands. All that can be wrong is the index of a directive, which reading takes as it stands.
-/

namespace Pseudocode

variable {n : Nat} {ts : List Token} {source : String}

/-! ## Trees without an error -/

@[simp] theorem Path.depth_child (path : Path) (k : Nat) : (path.child k).depth = path.depth + 1 :=
  List.length_append

theorem errorAt?_child_eq_none {path : Path} {i : Instruction} (h : i.offence? path.depth = none)
    (k : Nat) : errorAt? (path.child k) i = none := by
  rw [errorAt?, Path.depth_child, Nat.add_sub_cancel, h, Option.map_none]

theorem errorFrom?_eq_none (path : Path) (next : Nat) {is : List Instruction}
    (h : ∀ i ∈ is, ∀ k, errorAt? (path.child k) i = none ∧ errorBelow? (path.child k) i = none) :
    errorFrom? path next is = none := by
  induction is generalizing next with
  | nil => rfl
  | cons i is ih =>
    obtain ⟨hi, his⟩ := List.forall_mem_cons.1 h
    rw [errorFrom?, (hi next).1, (hi next).2, ih (next + 1) his]
    rfl

namespace Instruction

variable {e : Expr} {x : String} {body : List Instruction} {otherwise : Option (List Instruction)}
  {depth line : Nat}

theorem offence?_assign (hx : Text.isWord x.toList) : (assign x e line).offence? depth = none := by
  simp [offence?, blockOffence?, argumentOffence?, valueOffence?, assign, InstructionKind.hasBlock, hx]

theorem offence?_display : (display e line).offence? depth = none := by
  simp [offence?, blockOffence?, argumentOffence?, valueOffence?, display, InstructionKind.hasBlock]

theorem offence?_input (hx : Text.isWord x.toList) : (input x line).offence? depth = none := by
  simp [offence?, blockOffence?, argumentOffence?, valueOffence?, input, InstructionKind.hasBlock, hx]

theorem offence?_branch (hd : depth < maxNesting) :
    (branch e body otherwise line).offence? depth = none := by
  simp [offence?, blockOffence?, argumentOffence?, valueOffence?, branch, InstructionKind.hasBlock,
    hd]

theorem offence?_loop (hd : depth < maxNesting) : (loop e body line).offence? depth = none := by
  simp [offence?, blockOffence?, argumentOffence?, valueOffence?, loop, InstructionKind.hasBlock,
    hd]

/-- Whether an instruction is put together as it should be where `n` more blocks may be opened. -/
inductive Valid : Nat → Instruction → Prop where
  | assign {n : Nat} {x : String} (e : Expr) (line : Nat) :
    Text.isWord x.toList → Valid n (.assign x e line)
  | display {n : Nat} (e : Expr) (line : Nat) : Valid n (.display e line)
  | input {n : Nat} {x : String} (line : Nat) : Text.isWord x.toList → Valid n (.input x line)
  | branch {n : Nat} (e : Expr) {body : List Instruction} (line : Nat) :
    (∀ i ∈ body, Valid n i) → Valid (n + 1) (.branch e body none line)
  | branchElse {n : Nat} (e : Expr) {body otherwise : List Instruction} (line : Nat) :
    (∀ i ∈ body, Valid n i) → (∀ i ∈ otherwise, Valid n i) →
      Valid (n + 1) (.branch e body (some otherwise) line)
  | loop {n : Nat} (e : Expr) {body : List Instruction} (line : Nat) :
    (∀ i ∈ body, Valid n i) → Valid (n + 1) (.loop e body line)

theorem Valid.error_eq_none {i : Instruction} (h : i.Valid n) (path : Path)
    (hn : path.depth + n ≤ maxNesting) (k : Nat) :
    errorAt? (path.child k) i = none ∧ errorBelow? (path.child k) i = none := by
  induction h generalizing path k with
  | assign e line hx => exact ⟨errorAt?_child_eq_none (offence?_assign hx) k, rfl⟩
  | display e line => exact ⟨errorAt?_child_eq_none offence?_display k, rfl⟩
  | input line hx => exact ⟨errorAt?_child_eq_none (offence?_input hx) k, rfl⟩
  | branch e line _ ih =>
    have hbody := errorFrom?_eq_none (path.child k) 1
      fun i hi => ih i hi _ (by rw [Path.depth_child]; omega)
    refine ⟨errorAt?_child_eq_none (offence?_branch (by omega)) k, ?_⟩
    rw [Instruction.branch, errorBelow?, errorInBlock?, errorInBlock?, hbody]
    rfl
  | branchElse e line _ _ ih ih' =>
    have hbody := errorFrom?_eq_none (path.child k) 1
      fun i hi => ih i hi _ (by rw [Path.depth_child]; omega)
    have helse := fun next => errorFrom?_eq_none (path.child k) next
      fun i hi => ih' i hi _ (by rw [Path.depth_child]; omega)
    refine ⟨errorAt?_child_eq_none (offence?_branch (by omega)) k, ?_⟩
    rw [Instruction.branch, errorBelow?, errorInBlock?, errorInBlock?, hbody, helse]
    rfl
  | loop e line _ ih =>
    have hbody := errorFrom?_eq_none (path.child k) 1
      fun i hi => ih i hi _ (by rw [Path.depth_child]; omega)
    refine ⟨errorAt?_child_eq_none (offence?_loop (by omega)) k, ?_⟩
    rw [Instruction.loop, errorBelow?, errorInBlock?, errorInBlock?, hbody]
    rfl

end Instruction

theorem checkInstructions_eq_none {is : List Instruction} (h : ∀ i ∈ is, i.Valid maxNesting) :
    checkInstructions is = none :=
  errorFrom?_eq_none .root 1 fun i hi k => (h i hi).error_eq_none .root (Nat.le_refl _) k

/-! ## Instructions that were read -/

def Token.Named (t : Token) : Prop :=
  ∀ x, t.kind = .identifier x → Text.isWord x.toList

theorem Token.named_of_ofSource (h : Token.ofSource source = .ok ts) : ∀ t ∈ ts, t.Named := by
  intro t ht x hx
  have hplain := (Lexer.spells_of_ofSource h).plain t.kind (List.mem_map_of_mem ht)
  rw [hx] at hplain
  exact (hplain fun d hd => by cases hd).1

mutual

theorem Item.valid : ∀ (item : Item) (n : Nat), item.Grammatical → item.depth ≤ n →
    (∀ t ∈ item.tokens, t.Named) → ∀ i ∈ item.instruction?, i.Valid n
  | .assign t name equal d, n, ⟨ht, _⟩, _, hname => by
    rintro _ ⟨⟩
    exact .assign _ _ (hname t List.mem_cons_self name ht)
  | .display t d, n, _, _, _ => by
    rintro _ ⟨⟩
    exact .display _ _
  | .input t target name, n, ⟨_, hk⟩, _, hname => by
    rintro _ ⟨⟩
    exact .input _ (hname target (by simp [Item.tokens]) name hk)
  | .branch t d body, n, ⟨_, _, hb⟩, hdepth, hname => by
    rintro _ ⟨⟩
    obtain ⟨m, rfl⟩ := Nested.exists_eq_succ hdepth
    simp only [Item.tokens, List.forall_mem_cons, List.forall_mem_append] at hname
    exact .branch _ _ (Nested.valid body m hb hdepth hname.2.2)
  | .branchElse t d body otherwise, n, ⟨_, _, hb, ho⟩, hdepth, hname => by
    rintro _ ⟨⟩
    obtain ⟨hdb, hdo⟩ := Nat.max_le.1 hdepth
    obtain ⟨m, rfl⟩ := Nested.exists_eq_succ hdb
    simp only [Item.tokens, List.forall_mem_cons, List.forall_mem_append] at hname
    exact .branchElse _ _ (Nested.valid body m hb hdb hname.2.2.1)
      (Nested.valid otherwise m ho hdo hname.2.2.2)
  | .loop t d body, n, ⟨_, _, hb⟩, hdepth, hname => by
    rintro _ ⟨⟩
    obtain ⟨m, rfl⟩ := Nested.exists_eq_succ hdepth
    simp only [Item.tokens, List.forall_mem_cons, List.forall_mem_append] at hname
    exact .loop _ _ (Nested.valid body m hb hdepth hname.2.2)
  | .directive t line d, n, _, _, _ => by
    rintro _ ⟨⟩

theorem Nested.valid {k : Keyword} : ∀ (d : Nested) (n : Nat), d.Grammatical k → d.depth ≤ n + 1 →
    (∀ t ∈ d.tokens, t.Named) → ∀ i ∈ d.instructions, i.Valid n
  | .mk newline b closing, n, ⟨_, hb, _⟩, hdepth, hname =>
    Block.valid b n hb (Nat.le_of_succ_le_succ hdepth) fun t ht =>
      hname t (List.mem_cons_of_mem newline (List.mem_append_left [closing] ht))

theorem Block.valid {atEnd : Prop} : ∀ (b : Block) (n : Nat), b.Grammatical atEnd → b.depth ≤ n →
    (∀ t ∈ b.tokens, t.Named) → ∀ i ∈ b.instructions, i.Valid n
  | .blank newlines, n, _, _, _ => by
    rintro _ ⟨⟩
  | .line newlines item lineEnd rest, n, ⟨_, hi, _, hr⟩, hdepth, hname => by
    obtain ⟨hdi, hdr⟩ := Nat.max_le.1 hdepth
    simp only [Block.tokens, List.forall_mem_append] at hname
    obtain ⟨-, hnamei, -, hnamer⟩ := hname
    intro i hmem
    rcases List.mem_append.1 hmem with hmem | hmem
    · exact Item.valid item n hi hdi hnamei i (Option.mem_toList.1 hmem)
    · exact Block.valid rest n hr hdr hnamer i hmem

end

/-! ## Directives that were read -/

theorem DirectiveKind.accepts_of_interpret {kind : DirectiveKind} {lexemes : String}
    {v : WrittenValue} {value : DirectiveValue} (h : kind.interpret lexemes v = .ok value) :
    kind.accepts value := by
  cases kind with
  | unknown name =>
    cases h
    rfl
  | style property category =>
    simp only [interpret] at h
    split at h
    case h_1 | h_2 | h_7 =>
      split at h
      · cases h
        rfl
      · cases h
    case h_5 | h_9 | h_10 =>
      cases h
      rfl
    all_goals cases h

theorem Directive.accepts_of_read {final : Span} {line : Nat} {d : Directive} {rest : List Token}
    (h : Reads (read final line ts) d rest) : d.kind.accepts d.value := by
  obtain ⟨k, vs, mid, written, value, -, -, hvalue, rfl, -⟩ := reads_read.1 h
  exact DirectiveKind.accepts_of_interpret hvalue

mutual

theorem Item.accepts : ∀ item : Item, item.Grammatical → ∀ d ∈ item.directives, d.kind.accepts d.value
  | .assign .., _ | .display .., _ | .input .., _ => by
    rintro _ ⟨⟩
  | .branch t d body, ⟨_, _, hb⟩ => Nested.accepts body hb
  | .branchElse t d body otherwise, ⟨_, _, hb, ho⟩ =>
    List.forall_mem_append.2 ⟨Nested.accepts body hb, Nested.accepts otherwise ho⟩
  | .loop t d body, ⟨_, _, hb⟩ => Nested.accepts body hb
  | .directive t line d, ⟨_, final, hread⟩ => by
    simpa [Item.directives] using Directive.accepts_of_read hread

theorem Nested.accepts {k : Keyword} : ∀ nested : Nested, nested.Grammatical k →
    ∀ d ∈ nested.directives, d.kind.accepts d.value
  | .mk _ b _, ⟨_, hb, _⟩ => Block.accepts b hb

theorem Block.accepts {atEnd : Prop} : ∀ b : Block, b.Grammatical atEnd →
    ∀ d ∈ b.directives, d.kind.accepts d.value
  | .blank newlines, _ => by
    rintro _ ⟨⟩
  | .line newlines item lineEnd rest, ⟨_, hi, _, hr⟩ =>
    List.forall_mem_append.2 ⟨Item.accepts item hi, Block.accepts rest hr⟩

end

theorem invalidIndex_of_checkDirectives {ds : List Directive} {e : ValidationError}
    (hds : ∀ d ∈ ds, d.kind.accepts d.value) (h : checkDirectives ds = .error e) :
    ∃ n d, ds[n]? = some d ∧ d.target? = none ∧
      e = ⟨.directive (n + 1), d.line, .invalidIndex d.index⟩ := by
  obtain ⟨n, d, o, hn, ho, rfl, -⟩ := exists_of_checkDirectivesFrom h
  have haccepts : d.kind.accepts d.value = true := hds d (List.mem_of_getElem? hn)
  simp only [Directive.offence?, haccepts, Bool.not_true, Bool.false_eq_true, if_false] at ho
  split at ho
  case isTrue => cases ho
  case isFalse hindex =>
    cases ho
    exact ⟨n, d, hn, by simp_all, rfl⟩

/-! ## From the source to the program -/

namespace Program

theorem ofParts_eq_error_iff {is : List Instruction} {ds : List Directive} {e : ValidationError} :
    ofParts is ds = .error e ↔
      checkInstructions is = some e ∨ checkInstructions is = none ∧ checkDirectives ds = .error e := by
  unfold ofParts
  split
  case h_1 e' he => simp [he]
  case h_2 hi =>
    split
    case h_1 e' he => simp [hi, he]
    case h_2 hd => simp [hi, hd]

/-- Validation has nothing to say against instructions that were read of a source. -/
theorem checkInstructions_of_ofTokens {c : Content} (hts : Token.ofSource source = .ok ts)
    (hc : Content.ofTokens ts = .ok c) : checkInstructions c.instructions = none := by
  obtain ⟨b, hb, rfl⟩ := (Content.ofTokens_eq_ok_iff_exists hts).1 hc
  have hnamed : ∀ t ∈ b.tokens, t.Named := fun t ht =>
    Token.named_of_ofSource hts t (List.mem_of_mem_dropLast (hb.tokens ▸ ht))
  exact checkInstructions_eq_none (Block.valid b maxNesting hb.grammatical hb.depth hnamed)

/-- If what was read of a source is refused, then for the index of a directive; nothing is wrong with
its instructions, nor with the values of its directives. -/
theorem invalidIndex_of_ofParts {c : Content} (hts : Token.ofSource source = .ok ts)
    (hc : Content.ofTokens ts = .ok c) :
    checkInstructions c.instructions = none ∧ (∀ d ∈ c.directives, d.kind.accepts d.value) ∧
      ∀ e, ofParts c.instructions c.directives = .error e →
        ∃ n d, c.directives[n]? = some d ∧ d.target? = none ∧
          e = ⟨.directive (n + 1), d.line, .invalidIndex d.index⟩ := by
  obtain ⟨b, hb, rfl⟩ := (Content.ofTokens_eq_ok_iff_exists hts).1 hc
  have hnamed : ∀ t ∈ b.tokens, t.Named := fun t ht =>
    Token.named_of_ofSource hts t (List.mem_of_mem_dropLast (hb.tokens ▸ ht))
  have hinstructions : checkInstructions b.content.instructions = none :=
    checkInstructions_eq_none (Block.valid b maxNesting hb.grammatical hb.depth hnamed)
  have haccepts : ∀ d ∈ b.content.directives, d.kind.accepts d.value := Block.accepts b hb.grammatical
  refine ⟨hinstructions, haccepts, fun e he => ?_⟩
  rcases ofParts_eq_error_iff.1 he with he | ⟨-, he⟩
  · rw [hinstructions] at he
    cases he
  · exact invalidIndex_of_checkDirectives haccepts he

theorem invalidIndex_of_ofParts_zero : ∃ ts c,
    Token.ofSource "LEER x\n#CONFIG COLOR_SI HFF0000 0" = .ok ts ∧ Content.ofTokens ts = .ok c ∧
      ofParts c.instructions c.directives = .error ⟨.directive 1, 2, .invalidIndex "0"⟩ ∧
      checkInstructions c.instructions = none ∧ (∀ d ∈ c.directives, d.kind.accepts d.value) ∧
      ∀ e, ofParts c.instructions c.directives = .error e →
        ∃ n d, c.directives[n]? = some d ∧ d.target? = none ∧
          e = ⟨.directive (n + 1), d.line, .invalidIndex d.index⟩ := by
  have hts : Token.ofSource "LEER x\n#CONFIG COLOR_SI HFF0000 0" = .ok [
      ⟨.keyword .leer, "LEER", ⟨1, 1, 0, 4⟩⟩, ⟨.identifier "x", "x", ⟨1, 6, 5, 6⟩⟩,
      ⟨.newline, "\n", ⟨1, 7, 6, 7⟩⟩, ⟨.directive, "#CONFIG", ⟨2, 1, 7, 14⟩⟩,
      ⟨.identifier "COLOR_SI", "COLOR_SI", ⟨2, 9, 15, 23⟩⟩,
      ⟨.identifier "HFF0000", "HFF0000", ⟨2, 18, 24, 31⟩⟩, ⟨.integer 0, "0", ⟨2, 26, 32, 33⟩⟩,
      ⟨.endOfInput, "", ⟨2, 27, 33, 33⟩⟩] := by
    decide +kernel
  have hcontent : (Content.ofTokens [
      ⟨.keyword .leer, "LEER", ⟨1, 1, 0, 4⟩⟩, ⟨.identifier "x", "x", ⟨1, 6, 5, 6⟩⟩,
      ⟨.newline, "\n", ⟨1, 7, 6, 7⟩⟩, ⟨.directive, "#CONFIG", ⟨2, 1, 7, 14⟩⟩,
      ⟨.identifier "COLOR_SI", "COLOR_SI", ⟨2, 9, 15, 23⟩⟩,
      ⟨.identifier "HFF0000", "HFF0000", ⟨2, 18, 24, 31⟩⟩, ⟨.integer 0, "0", ⟨2, 26, 32, 33⟩⟩,
      ⟨.endOfInput, "", ⟨2, 27, 33, 33⟩⟩] >>= fun c => .ok c.directives) =
        .ok [⟨.style .color .si, .hexColor "HFF0000", "0", 2⟩] := by
    decide +kernel
  obtain ⟨c, hc, hds⟩ := Except.bind_eq_ok_iff.1 hcontent
  obtain ⟨hinstructions, haccepts, hindex⟩ := invalidIndex_of_ofParts hts hc
  have herror : checkDirectives c.directives = .error ⟨.directive 1, 2, .invalidIndex "0"⟩ := by
    rw [Except.ok.inj hds]
    decide +kernel
  have hparts := ofParts_eq_error_iff.2 (.inr ⟨hinstructions, herror⟩)
  exact ⟨_, c, hts, hc, hparts, hinstructions, haccepts, hindex⟩

end Program
end Pseudocode
