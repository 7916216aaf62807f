import Pseudocode.Proofs.Program.RoundTrip
import Pseudocode.Proofs.Session.Failures
import Pseudocode.Proofs.Token.Lines
import Pseudocode.Proofs.View.Flowchart
import Pseudocode.View.Report

/-! # The lines of a program

No two instructions of a program that was read stand on one line, and their order on the lines is that of their
paths: a line break comes after each of them, and after the beginning of each block. So the line in an error or
in a report tells which instruction is meant, and so does the path in an error or in a flowchart.
-/

namespace Pseudocode

variable {t u : Token} {ts us : List Token} {source : String}

/-! ## Tokens -/

/-- The second token stands no higher than the first one, and further down if that is a line break. -/
structure Token.Precedes (t u : Token) : Prop where
  le : t.span.line ≤ u.span.line
  lt : t.kind = .newline → t.span.line < u.span.line

namespace Lexer

theorem line_le_next (p : Position) (c : Char) : p.line ≤ (p.next c).line := by
  unfold Position.next
  split
  · exact Nat.le_succ _
  · exact Nat.le_refl _

theorem line_le_after (p : Position) (cs : List Char) : p.line ≤ (p.after cs).line := by
  induction cs generalizing p with
  | nil => exact Nat.le_refl _
  | cons c cs ih => exact (line_le_next p c).trans (ih (p.next c))

theorem eq_newline_of_front {c : Char} {cs : List Char} {n : Nat} (h : front c cs = .ok (.newline, n)) :
    c = '\n' := by
  rcases front_cases h with ⟨-, h⟩ | ⟨-, h⟩ | ⟨-, h⟩ | ⟨-, h⟩ | h
  · rcases number_cases h with ⟨i, hk, -⟩ | ⟨d, hk, -⟩ <;> cases hk
  · obtain ⟨body, hk, -⟩ := text_cases h
    cases hk
  · rcases (word_cases h).2 with ⟨w, hk⟩ | ⟨name, hk, -⟩ <;> cases hk
  · cases h
  · unfold symbol? at h
    split at h <;> first | rfl | cases h

/-- What is read after a token stands no higher than it, and further down after a line break. -/
theorem line_after_front {c : Char} {cs : List Char} {k : TokenKind} {n : Nat} (p : Position)
    (h : front c cs = .ok (k, n)) : p.line ≤ (p.after (c :: cs.take n)).line ∧
      (k = .newline → p.line < (p.after (c :: cs.take n)).line) := by
  refine ⟨line_le_after p _, ?_⟩
  rintro rfl
  obtain rfl := eq_newline_of_front h
  exact line_le_after (p.next '\n') (cs.take n)

theorem scan_precedes (p : Position) (cs : List Char) :
    (∀ t ∈ (scan p cs).1, p.line ≤ t.span.line) ∧ (scan p cs).1.Pairwise Token.Precedes := by
  fun_induction scan p cs with
  | case1 p => simp [tokenAt]
  | case2 p c cs hb ih =>
    exact ⟨fun t ht => (line_le_next p c).trans (ih.1 t ht), ih.2⟩
  | case3 p c cs hb hc n ih =>
    exact ⟨fun t ht => (line_le_after p (c :: cs.take n)).trans (ih.1 t ht), ih.2⟩
  | case4 p c cs hb hc fault hf => simp
  | case5 p c cs hb hc k n hf ts e hts ih =>
    rw [hts] at ih
    obtain ⟨hle, hlt⟩ := line_after_front p hf
    refine ⟨List.forall_mem_cons.mpr ⟨Nat.le_refl _, fun t ht => hle.trans (ih.1 t ht)⟩, ?_⟩
    refine List.pairwise_cons.mpr ⟨fun t ht => ⟨hle.trans (ih.1 t ht), fun hk => ?_⟩, ih.2⟩
    exact (hlt hk).trans_le (ih.1 t ht)

end Lexer

theorem Token.precedes_of_ofSource (h : Token.ofSource source = .ok ts) : ts.Pairwise Token.Precedes := by
  have hscan := (Lexer.scan_precedes ⟨1, 1, 0⟩ source.toList).2
  rwa [← Token.scan, Token.ofSource_eq_ok h] at hscan

theorem Token.line_lt_of_newline (h : (ts ++ t :: us).Pairwise Token.Precedes) (ht : t.kind = .newline) :
    ∀ s ∈ ts, ∀ u ∈ us, s.span.line < u.span.line := by
  intro s hs u hu
  obtain ⟨-, hrest, hcross⟩ := List.pairwise_append.mp h
  have hst := hcross s hs t List.mem_cons_self
  have htu := (List.pairwise_cons.mp hrest).1 u hu
  exact hst.le.trans_lt (htu.lt ht)

/-! ## Listings -/

namespace Instruction

variable {is js : List Instruction} {path : Path} {n : Nat} {es fs : List (Path × Instruction)}

theorem listingFrom_append (path : Path) (n : Nat) (is js : List Instruction) :
    listingFrom path n (is ++ js) = listingFrom path n is ++ listingFrom path (n + is.length) js := by
  induction is generalizing n with
  | nil => rfl
  | cons i is ih =>
    rw [List.cons_append, listingFrom, listingFrom, ih, List.append_assoc, List.length_cons,
      Nat.add_assoc, Nat.add_comm 1]

/-- The instructions stand on lines of the tokens, each one below those before it. -/
structure Lined (ts : List Token) (es : List (Path × Instruction)) : Prop where
  mem : ∀ e ∈ es, ∃ t ∈ ts, t.span.line = e.2.line
  pairwise : es.Pairwise fun a b => a.2.line < b.2.line

namespace Lined

theorem nil : Lined ts [] := ⟨nofun, .nil⟩

theorem mono (h : Lined ts es) (hts : ∀ t ∈ ts, t ∈ us) : Lined us es where
  mem e he := by
    obtain ⟨t, ht, hline⟩ := h.mem e he
    exact ⟨t, hts t ht, hline⟩
  pairwise := h.pairwise

theorem append (h : Lined ts es) (h' : Lined us fs)
    (hlt : ∀ t ∈ ts, ∀ u ∈ us, t.span.line < u.span.line) : Lined (ts ++ us) (es ++ fs) where
  mem := by
    refine List.forall_mem_append.mpr ⟨?_, ?_⟩
    · exact (h.mono fun t ht => List.mem_append_left us ht).mem
    · exact (h'.mono fun t ht => List.mem_append_right ts ht).mem
  pairwise := by
    refine List.pairwise_append.mpr ⟨h.pairwise, h'.pairwise, fun a ha b hb => ?_⟩
    obtain ⟨t, ht, hta⟩ := h.mem a ha
    obtain ⟨u, hu, hub⟩ := h'.mem b hb
    rw [← hta, ← hub]
    exact hlt t ht u hu

theorem append_newline (h : Lined ts es) (h' : Lined us fs) (ht : t.kind = .newline)
    (hts : (ts ++ t :: us).Pairwise Token.Precedes) : Lined (ts ++ t :: us) (es ++ fs) := by
  refine (h.append h' (Token.line_lt_of_newline hts ht)).mono ?_
  exact List.forall_mem_append.mpr ⟨fun s hs => List.mem_append_left _ hs,
    fun s hs => List.mem_append_right _ (List.mem_cons_of_mem _ hs)⟩

theorem head (t : Token) (path : Path) {i : Instruction} (hi : i.line = t.span.line) :
    Lined [t] [(path, i)] :=
  ⟨by simp [hi], List.pairwise_singleton ..⟩

end Lined
end Instruction

open Instruction (Lined listingFrom listingFrom_append)

mutual

theorem Item.lined : ∀ item : Item, item.Grammatical → item.tokens.Pairwise Token.Precedes →
    ∀ i ∈ item.instruction?, ∀ path : Path, Lined item.tokens ((path, i) :: i.listingBelow path)
  | .assign t name equal d, _, _ => by
    rintro _ ⟨⟩ path
    exact (Lined.head t path rfl).mono (by simp [Item.tokens])
  | .display t d, _, _ => by
    rintro _ ⟨⟩ path
    exact (Lined.head t path rfl).mono (by simp [Item.tokens])
  | .input t target name, _, _ => by
    rintro _ ⟨⟩ path
    exact (Lined.head t path rfl).mono (by simp [Item.tokens])
  | .branch t d body, ⟨_, _, hb⟩, hts => by
    rintro _ ⟨⟩ path
    have hhead : Lined (t :: d.tokens) [(path, .branch d.expr body.instructions none t.span.line)] :=
      (Lined.head t path rfl).mono (by simp)
    have hbody := Nested.lined body hb hhead hts path 1
    rwa [Instruction.branch, Instruction.listingBelow, Instruction.listingBlock, Instruction.listingBlock,
      List.append_nil]
  | .branchElse t d body otherwise, ⟨_, _, hb, ho⟩, hts => by
    rintro _ ⟨⟩ path
    have hhead : Lined (t :: d.tokens)
        [(path, .branch d.expr body.instructions (some otherwise.instructions) t.span.line)] :=
      (Lined.head t path rfl).mono (by simp)
    rw [Item.tokens, ← List.append_assoc, ← List.cons_append] at hts
    have hbody := Nested.lined body hb hhead (List.pairwise_append.mp hts).1 path 1
    have hboth := Nested.lined otherwise ho hbody hts path (body.instructions.length + 1)
    rw [List.append_assoc, List.append_assoc] at hboth
    rw [Instruction.branch, Instruction.listingBelow, Instruction.listingBlock, Instruction.listingBlock]
    exact hboth
  | .loop t d body, ⟨_, _, hb⟩, hts => by
    rintro _ ⟨⟩ path
    have hhead : Lined (t :: d.tokens) [(path, .loop d.expr body.instructions t.span.line)] :=
      (Lined.head t path rfl).mono (by simp)
    have hbody := Nested.lined body hb hhead hts path 1
    rwa [Instruction.loop, Instruction.listingBelow, Instruction.listingBlock, Instruction.listingBlock,
      List.append_nil]
  | .directive t line d, _, _ => by
    rintro _ ⟨⟩

theorem Nested.lined {k : Keyword} {ts : List Token} {es : List (Path × Instruction)} : ∀ d : Nested,
    d.Grammatical k → Lined ts es → (ts ++ d.tokens).Pairwise Token.Precedes →
    ∀ (path : Path) (n : Nat), Lined (ts ++ d.tokens) (es ++ listingFrom path n d.instructions)
  | .mk newline b closing, ⟨hn, hb, _⟩, hes, hts, path, n => by
    have htokens : b.tokens.Pairwise Token.Precedes :=
      hts.sublist (List.sublist_append_of_sublist_right
        (List.sublist_cons_of_sublist newline (List.sublist_append_left b.tokens [closing])))
    have hblock := (Block.lined b hb htokens path n).mono fun t ht => List.mem_append_left [closing] ht
    exact hes.append_newline hblock hn hts

theorem Block.lined {atEnd : Prop} : ∀ b : Block, b.Grammatical atEnd →
    b.tokens.Pairwise Token.Precedes → ∀ (path : Path) (n : Nat),
    Lined b.tokens (listingFrom path n b.instructions)
  | .blank newlines, _, _, path, n => Lined.nil
  | .line newlines item lineEnd rest, ⟨_, hi, hl, hr⟩, hts, path, n => by
    have hline := (List.pairwise_append.mp hts).2.1
    obtain ⟨hitems, hothers, -⟩ := List.pairwise_append.mp hline
    have hitem : Lined item.tokens (listingFrom path n item.instruction?.toList) := by
      cases hinstruction : item.instruction? with
      | none => exact Lined.nil
      | some i =>
        have hfirst := Item.lined item hi hitems i hinstruction (path.child n)
        rwa [Option.toList_some, listingFrom, listingFrom, List.append_nil]
    have hrest := Block.lined rest hr (List.pairwise_append.mp hothers).2.1 path
      (n + item.instruction?.toList.length)
    have hall : Lined (item.tokens ++ (lineEnd.toList ++ rest.tokens))
        (listingFrom path n (item.instruction?.toList ++ rest.instructions)) := by
      rw [listingFrom_append]
      cases lineEnd with
      | some t => exact hitem.append_newline hrest hl hline
      | none =>
        -- the input ends here, and so does the block
        refine hitem.append hrest fun s _ u hu => ?_
        rw [hl.2] at hu
        cases hu
    exact hall.mono fun t ht => List.mem_append_right newlines ht

end

/-! ## Entries of a report -/

namespace Report

variable {i : Instruction}

theorem line_of_mem_operatorsOf {o : Occurrence} (h : o ∈ operatorsOf i) : o.line = i.line := by
  unfold operatorsOf at h
  split at h
  case h_1 => cases h
  case h_2 =>
    obtain ⟨_, -, rfl⟩ := List.mem_map.mp h
    rfl

theorem line_of_structureOf? {s : ControlStructure} (h : structureOf? i = some s) :
    s.line = i.line := by
  unfold structureOf? at h
  split at h
  case isTrue =>
    cases h
    rfl
  case isFalse => cases h

end Report

/-! ## Instructions -/

namespace Program

variable {p : Program} {path : Path} {line : Nat} {i : Instruction}

theorem pairwise_lines (h : Program.ofSource source = .ok p) :
    (Instruction.listing p.instructions).Pairwise fun a b => a.2.line < b.2.line := by
  obtain ⟨ts, c, hts, hc, hi, -⟩ := ofSource_eq_ok_iff.mp h
  obtain ⟨b, hb, rfl⟩ := (Content.ofTokens_eq_ok_iff_exists hts).mp hc
  have htokens : b.tokens.Pairwise Token.Precedes := by
    rw [hb.tokens]
    exact (Token.precedes_of_ofSource hts).sublist (List.dropLast_sublist ts)
  rw [hi]
  exact (Block.lined b hb.grammatical htokens .root 1).pairwise

/-- The order of the paths is that of the lines. -/
theorem path_lt_iff (h : Program.ofSource source = .ok p) {q r : Path} {i j : Instruction}
    (hi : p.find? q = some i) (hj : p.find? r = some j) : q < r ↔ i.line < j.line := by
  let R (a b : Path × Instruction) : Prop := a.1 < b.1 ↔ a.2.line < b.2.line
  have hboth := (Instruction.pairwise_listing p.instructions).and (pairwise_lines h)
  have hself : ∀ e ∈ Instruction.listing p.instructions, R e e :=
    fun e _ => iff_of_false e.1.lt_irrefl (Nat.lt_irrefl _)
  have hforth : (Instruction.listing p.instructions).Pairwise R :=
    hboth.imp fun hlt => iff_of_true hlt.1 hlt.2
  have hback : (Instruction.listing p.instructions).Pairwise (flip R) :=
    hboth.imp fun hlt => iff_of_false (Path.lt_asymm hlt.1) (Nat.lt_asymm hlt.2)
  exact hforth.forall_of_forall_of_flip hself hback (Instruction.mem_listing_iff.mpr hi)
    (Instruction.mem_listing_iff.mpr hj)

/-- There is an instruction at the path, and it is the only one on the line. -/
def Pinpoints (p : Program) (path : Path) (line : Nat) : Prop :=
  ∃ i, p.find? path = some i ∧ i.line = line ∧ ∀ q j, p.find? q = some j → j.line = line → q = path

theorem pinpoints_of_find? (h : Program.ofSource source = .ok p) (hi : p.find? path = some i) :
    p.Pinpoints path i.line := by
  refine ⟨i, hi, rfl, fun q j hj hline => ?_⟩
  have hnodup : ((Instruction.listing p.instructions).map (·.2.line)).Nodup :=
    (List.pairwise_map.mpr (pairwise_lines h)).imp Nat.ne_of_lt
  exact congrArg Prod.fst (List.inj_on_of_nodup_map hnodup (Instruction.mem_listing_iff.mpr hj)
    (Instruction.mem_listing_iff.mpr hi) hline)

/-- A path in the error is that of an instruction on a line of its own, and a line in it is this one. -/
def PinpointedBy (p : Program) (e : RunError) : Prop :=
  ∀ path ∈ e.path?, ∃ line, p.Pinpoints path line ∧ ∀ l ∈ e.line?, l = line

theorem Locates.pinpointedBy {e : RunError} (hp : Program.ofSource source = .ok p) (h : p.Locates e) :
    p.PinpointedBy e := by
  intro path hpath
  obtain ⟨i, hi, hline⟩ := h path hpath
  exact ⟨i.line, pinpoints_of_find? hp hi, fun l hl => (hline l hl).symm⟩

/-- Lines identify the instructions of a program that was read, as their paths do. Whatever it is asked for, the
path in an error is that of an instruction on a line of its own, which is the line in the error. An entry of
a report is made for the only instruction on its line, and a node of the flowchart for that at its path, which
is the only one on its line. -/
theorem lines_identify (h : Program.ofSource source = .ok p) :
    (∀ q r i j, p.find? q = some i → p.find? r = some j → (q < r ↔ i.line < j.line)) ∧
    (∀ cancelAt calls c e, (((Session.start p cancelAt).after calls).call c).1 = .stopped e →
      p.PinpointedBy e) ∧
    (∀ cancelAt calls fuel inputs e,
      (((Session.start p cancelAt).after calls).runWith fuel inputs).1 = .stopped e →
        p.PinpointedBy e) ∧
    (∀ o ∈ (Report.ofProgram p).operators, ∃ path i,
      p.find? path = some i ∧ o ∈ Report.operatorsOf i ∧ p.Pinpoints path o.line) ∧
    (∀ s ∈ (Report.ofProgram p).structures, ∃ path i,
      p.find? path = some i ∧ Report.structureOf? i = some s ∧ p.Pinpoints path s.line) ∧
    ∀ n ∈ (Flowchart.ofProgram p).nodes, ∃ k i,
      p.find? n.path = some i ∧ n = Flowchart.node p k n.path i ∧ p.Pinpoints n.path i.line := by
  refine ⟨fun q r i j => path_lt_iff h, ?_, ?_, fun o ho => ?_, fun s hs => ?_, fun n hn => ?_⟩
  · intro cancelAt calls c e he
    exact (Session.locates_of_call p cancelAt calls he).pinpointedBy h
  · intro cancelAt calls fuel inputs e he
    exact (Session.locates_of_runWith rfl he).pinpointedBy h
  · obtain ⟨i, hi, ho⟩ := List.mem_flatMap.mp ho
    obtain ⟨⟨path, i⟩, hmem, rfl⟩ := List.mem_map.mp hi
    have hfind := Instruction.mem_listing_iff.mp hmem
    rw [Report.line_of_mem_operatorsOf ho]
    exact ⟨path, i, hfind, ho, pinpoints_of_find? h hfind⟩
  · obtain ⟨i, hi, hs⟩ := List.mem_filterMap.mp hs
    obtain ⟨⟨path, i⟩, hmem, rfl⟩ := List.mem_map.mp hi
    have hfind := Instruction.mem_listing_iff.mp hmem
    rw [Report.line_of_structureOf? hs]
    exact ⟨path, i, hfind, hs, pinpoints_of_find? h hfind⟩
  · obtain ⟨k, hk⟩ := List.getElem?_of_mem hn
    obtain ⟨path, i, hfind, rfl⟩ := Flowchart.nodes_getElem? hk
    exact ⟨k + 1, i, hfind, rfl, pinpoints_of_find? h hfind⟩

/-- An instruction in the second block of a branch fails, below a blank line. -/
theorem lines_identify_otherwise : ∃ p,
    Program.ofSource "SI FALSO\nSINO\n\nMOSTRAR 1 / 0\nFINSI" = .ok p ∧
    ((Session.start p none).runWith 9 []).1 = .stopped (.failed ⟨[1, 1]⟩ 4 .divisionByZero) ∧
    p.PinpointedBy (.failed ⟨[1, 1]⟩ 4 .divisionByZero) := by
  have houtcome : (Program.ofSource "SI FALSO\nSINO\n\nMOSTRAR 1 / 0\nFINSI" >>= fun p =>
      .ok ((Session.start p none).runWith 9 []).1) =
      .ok (.stopped (.failed ⟨[1, 1]⟩ 4 .divisionByZero)) := by
    decide +kernel
  obtain ⟨p, hp, hrun⟩ := Except.bind_eq_ok_iff.mp houtcome
  have hrun := Except.ok.inj hrun
  exact ⟨p, hp, hrun, (lines_identify hp).2.2.1 none [] 9 [] _ hrun⟩

end Program
end Pseudocode
