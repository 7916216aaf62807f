import Pseudocode.Proofs.Expr.Places
import Pseudocode.Proofs.Program.Lines
import Pseudocode.Proofs.Program.SameShape

/-! # Reports and trees

The operators of a report are found by a scan of texts, in which every quote turns the search off or on again.
What the scan finds in the text of an expression that was read are the arithmetic nodes of the tree: a text
literal has an even number of quotes, and neither numerals nor names have a sign in them.
-/

namespace Pseudocode

/-! ## Operators of a tree -/

/-- The name that a report has for the operator of a node, if it is an arithmetic one. -/
def Expr.reportName? : Expr → Option String
  | .unary .negate _ => some "Resta"
  | .binary _ (.arith .add) _ => some "Suma"
  | .binary _ (.arith .subtract) _ => some "Resta"
  | .binary _ (.arith .multiply) _ => some "Multiplicacion"
  | .binary _ (.arith .divide) _ => some "Division"
  | _ => none

theorem Expr.length_symbol {n : Expr} {name : String} (h : n.reportName? = some name) :
    n.symbol.length = 1 := by
  unfold Expr.reportName? at h
  split at h
  case h_6 => cases h
  all_goals
    rw [Expr.symbol]
    rfl

namespace Report

variable {places : List (Expr × Nat)} {e n : Expr}

def operatorsAt (places : List (Expr × Nat)) : List (String × Nat) :=
  places.filterMap fun (n, column) => n.reportName?.map fun name => (name, column)

theorem operatorsAt_cons (n : Expr) (column : Nat) (places : List (Expr × Nat)) :
    operatorsAt ((n, column) :: places) =
      (n.reportName?.map fun name => (name, column)).toList ++ operatorsAt places := by
  cases hname : n.reportName? <;> simp [operatorsAt, hname]

theorem operatorsAt_append (as bs : List (Expr × Nat)) :
    operatorsAt (as ++ bs) = operatorsAt as ++ operatorsAt bs :=
  List.filterMap_append

theorem exists_of_mem_operatorsAt {o : String × Nat} (h : o ∈ operatorsAt places) :
    ∃ n, (n, o.2) ∈ places ∧ n.reportName? = some o.1 := by
  obtain ⟨⟨n, column⟩, hplace, ho⟩ := List.mem_filterMap.mp h
  obtain ⟨name, hname, rfl⟩ := Option.map_eq_some_iff.mp ho
  exact ⟨n, hplace, hname⟩

section

variable (h : places.Pairwise fun a b => a.2 + a.1.symbol.length ≤ b.2)
include h

theorem pairwise_operatorsAt : (operatorsAt places).Pairwise (·.2 < ·.2) := by
  refine h.filterMap _ fun a b hab o ho o' ho' => ?_
  obtain ⟨name, hname, rfl⟩ := Option.map_eq_some_iff.mp ho
  obtain ⟨name', -, rfl⟩ := Option.map_eq_some_iff.mp ho'
  rw [Expr.length_symbol hname] at hab
  exact hab

theorem apart_of_mem_operatorsAt {place : Expr × Nat} {o : String × Nat} (hplace : place ∈ places)
    (hnone : place.1.reportName? = none) (ho : o ∈ operatorsAt places) :
    o.2 < place.2 ∨ place.2 + place.1.symbol.length ≤ o.2 := by
  obtain ⟨n, hn, hname⟩ := exists_of_mem_operatorsAt ho
  let R (a b : Expr × Nat) : Prop := a.1.reportName? = some o.1 → b.1.reportName? = none →
    a.2 < b.2 ∨ b.2 + b.1.symbol.length ≤ a.2
  have hself : ∀ a ∈ places, R a a := fun a _ hsome hnone => by
    rw [hsome] at hnone
    cases hnone
  have hforth : places.Pairwise R := h.imp fun hab hsome _ => by
    rw [Expr.length_symbol hsome] at hab
    exact .inl hab
  have hback : places.Pairwise (flip R) := h.imp fun hab _ _ => .inr hab
  exact hforth.forall_of_forall_of_flip hself hback hn hplace hname hnone

end

/-! ## Scans -/

variable {s t : String} {f g : Nat → List (String × Nat)} {cs : List Char}

/-- From outside of a literal to outside of a literal, the scan finds `f` in the text, which may begin in any
column. -/
def Scans (s : String) (f : Nat → List (String × Nat)) : Prop :=
  ∀ (column : Nat) (rest : List Char),
    scan false column (s.toList ++ rest) = f column ++ scan false (column + s.length) rest

theorem Scans.append (h : Scans s f) (h' : Scans t g) :
    Scans (s ++ t) fun column => f column ++ g (column + s.length) := by
  intro column rest
  rw [String.toList_append, List.append_assoc, h, h', String.length_append, List.append_assoc,
    Nat.add_assoc]

def significant : List Char := ['"', '+', '-', '*', '/']

theorem scan_of_not_mem {c : Char} (hc : c ∉ significant) (column : Nat) (rest : List Char) :
    scan false column (c :: rest) = scan false (column + 1) rest := by
  simp only [significant, List.mem_cons, List.not_mem_nil, or_false, not_or] at hc
  have hname : operatorName? c = none := by
    unfold operatorName?
    split <;> simp_all
  rw [scan, if_neg hc.1, if_neg Bool.false_ne_true, hname]

theorem scan_append_of_not_mem (h : ∀ c ∈ cs, c ∉ significant) (column : Nat) (rest : List Char) :
    scan false column (cs ++ rest) = scan false (column + cs.length) rest := by
  induction cs generalizing column with
  | nil => rfl
  | cons c cs ih =>
    rw [List.forall_mem_cons] at h
    rw [List.cons_append, scan_of_not_mem h.1, ih h.2, List.length_cons, Nat.add_right_comm,
      Nat.add_assoc]

theorem scans_of_not_mem (h : ∀ c ∈ s.toList, c ∉ significant) : Scans s fun _ => [] := by
  intro column rest
  rw [← String.length_toList]
  exact scan_append_of_not_mem h column rest

theorem scan_quoted {c : Char} (hc : c ≠ '"') (column : Nat) (rest : List Char) :
    scan true column (c :: rest) = scan true (column + 1) rest := by
  rw [scan, if_neg hc, if_pos rfl]

theorem scan_quote (quoted : Bool) (column : Nat) (rest : List Char) :
    scan quoted column ('"' :: rest) = scan (!quoted) (column + 1) rest := by
  rw [scan, if_pos rfl]

/-- The quotes in a literal come in pairs, so nothing is found between them. -/
theorem scan_doubleQuotes (cs rest : List Char) (column : Nat) :
    scan true column (Text.doubleQuotes cs ++ rest) =
      scan true (column + (Text.doubleQuotes cs).length) rest := by
  induction cs generalizing column with
  | nil => rfl
  | cons c cs ih =>
    rw [Text.doubleQuotes]
    split
    case isTrue =>
      rw [List.cons_append, List.cons_append, scan_quote, scan_quote, Bool.not_not, ih]
      congr 1
      simp only [List.length_cons]
      omega
    case isFalse hc =>
      rw [List.cons_append, scan_quoted hc, ih, List.length_cons, Nat.add_right_comm, Nat.add_assoc]

theorem scans_quote (s : String) : Scans (Text.quote s) fun _ => [] := by
  intro column rest
  rw [← String.length_toList, Text.quote, String.toList_ofList, List.nil_append, List.cons_append,
    List.cons_append, List.append_assoc, scan_quote, Bool.not_false, scan_doubleQuotes,
    List.singleton_append, scan_quote, Bool.not_true]
  congr 1
  simp only [List.length_cons, List.length_append, List.length_nil]
  omega

/-! ## The scan of a tree -/

theorem Scans.congr (h : Scans s f) (hfg : ∀ column, f column = g column) : Scans s g := by
  obtain rfl : f = g := funext hfg
  exact h

theorem Scans.parenthesize {needed : Bool} (h : Scans s f) :
    Scans (Expr.parenthesize needed s) fun column => f (column + needed.toNat) := by
  cases needed with
  | false => exact h
  | true =>
    have hleft : Scans "(" fun _ => [] := scans_of_not_mem (by simp [significant])
    have hright : Scans ")" fun _ => [] := scans_of_not_mem (by simp [significant])
    exact ((hleft.append h).append hright).congr fun column => List.append_nil _

theorem scans_lead (op : UnaryOp) (e : Expr) :
    Scans op.lead fun column => ((Expr.unary op e).reportName?.map fun name => (name, column)).toList := by
  cases op with
  | negate => exact fun column rest => rfl
  | not => exact scans_of_not_mem (by simp [UnaryOp.lead, significant])

theorem scans_symbol (l : Expr) (op : BinaryOp) (r : Expr) :
    Scans op.symbol fun column =>
      ((Expr.binary l op r).reportName?.map fun name => (name, column)).toList := by
  rcases op with (_ | _ | _ | _ | _) | (_ | _ | _ | _ | _ | _) | (_ | _)
  case arith.add | arith.subtract | arith.multiply | arith.divide => exact fun column rest => rfl
  all_goals exact scans_of_not_mem (by simp [BinaryOp.symbol, significant])

/-- If nothing is found in the literals and the names of a tree, the operators of the tree are found. -/
theorem scans_render (h : ∀ n ∈ e.inorder, n.isLeaf → Scans n.symbol fun _ => []) :
    Scans e.render fun column => operatorsAt (e.placesFrom column) := by
  induction e with
  | literal v => exact h _ List.mem_cons_self rfl
  | var x => exact h _ List.mem_cons_self rfl
  | unary op e ih =>
    have he := ih fun n hn => h n (List.mem_cons_of_mem _ hn)
    refine ((scans_lead op e).append he.parenthesize).congr fun column => ?_
    rw [Expr.placesFrom, operatorsAt_cons]
  | binary l op r ihl ihr =>
    have hl := ihl fun n hn => h n (List.mem_append_left _ hn)
    have hr := ihr fun n hn => h n (List.mem_append_right _ (List.mem_cons_of_mem _ hn))
    have hblank : Scans " " fun _ => [] := scans_of_not_mem (by simp [significant])
    refine ((((hl.parenthesize.append hblank).append (scans_symbol l op r)).append hblank).append
      hr.parenthesize).congr fun column => ?_
    rw [Expr.placesFrom, operatorsAt_append, operatorsAt_cons]
    simp only [List.append_nil, List.append_assoc]

/-! ## Literals and names that were read -/

variable {source : String} {ts : List Token} {u : Token}

theorem not_mem_significant {p : Char → Bool} (hp : significant.any p = false) {c : Char} (hc : p c) :
    c ∉ significant := by
  intro hmem
  rw [List.any_eq_true.mpr ⟨c, hmem, hc⟩] at hp
  cases hp

theorem not_mem_significant_of_isDigit {c : Char} (h : c.isDigit) : c ∉ significant :=
  not_mem_significant (by decide) h

theorem isWordChar_of_isWord {cs : List Char} (h : Text.isWord cs) : ∀ c ∈ cs, Text.isWordChar c := by
  cases cs with
  | nil => nofun
  | cons c cs =>
    rw [Text.isWord, Bool.and_eq_true, List.all_eq_true] at h
    refine List.forall_mem_cons.mpr ⟨?_, h.2⟩
    rw [Text.isWordChar, h.1]
    rfl

theorem scans_integer {n : Int64} (h : 0 ≤ n.toInt) : Scans (toString n.toInt) fun _ => [] := by
  obtain ⟨m, hm⟩ := Int.eq_ofNat_of_zero_le h
  refine scans_of_not_mem fun c hc => not_mem_significant_of_isDigit ?_
  rw [hm, show (toString (m : Int)).toList = Nat.toDigits 10 m from Nat.toList_repr] at hc
  exact Decimal.isDigit_of_mem_toDigits hc

theorem scans_decimal {d : Float} (h : Decimal.Unsigned d) :
    Scans (Decimal.Layout.literal.render d) fun _ => [] := by
  rcases h.denote_cases with hd | hd | ⟨q, hd⟩
  · rw [Decimal.Layout.render, hd]
    exact scans_of_not_mem (by simp [significant])
  · rw [Decimal.Layout.render, hd]
    exact scans_of_not_mem (by simp [significant])
  · obtain ⟨whole, fraction, hpointed, htext, -⟩ := Decimal.render_literal hd
    rw [htext]
    refine scans_of_not_mem ?_
    rw [String.toList_ofList, List.forall_mem_append, List.forall_mem_cons]
    exact ⟨fun c hc => not_mem_significant_of_isDigit (hpointed.isDigit_of_mem_whole c hc), by decide,
      fun c hc => not_mem_significant_of_isDigit (hpointed.isDigit_of_mem_fraction c hc)⟩

theorem scans_name {x : String} (h : Text.isWord x.toList) : Scans x fun _ => [] :=
  scans_of_not_mem fun c hc => not_mem_significant (by decide) (isWordChar_of_isWord h c hc)

theorem scans_of_token (hts : Token.ofSource source = .ok ts) (ht : u ∈ ts)
    (hn : Expr.ofToken? u.kind = some n) : Scans n.symbol fun _ => [] := by
  have hspells := Lexer.spells_of_ofSource hts
  have hkind : u.kind ∈ ts.map Token.kind := List.mem_map_of_mem ht
  obtain ⟨v, hk, rfl⟩ | ⟨x, hk, rfl⟩ := Expr.ofToken?_cases hn
  · rw [hk] at hkind
    cases v with
    | integer n => exact scans_integer (hspells.plain _ hkind nofun)
    | decimal d => exact scans_decimal (hspells.unsigned d hkind)
    | boolean b => cases b <;> exact scans_name (by decide)
    | text s => exact scans_quote s
  · exact scans_name (Token.named_of_ofSource hts u ht x hk)

theorem scan_of_spelled (hts : Token.ofSource source = .ok ts) (h : e.Spelled ts) :
    scan false 1 e.render.toList = operatorsAt (e.placesFrom 1) := by
  obtain ⟨d, rfl, hg, -, ht⟩ := h
  have hscans := scans_render fun n hn hleaf => by
    obtain ⟨u, hu, hn⟩ := hg.exists_token n hn hleaf
    exact scans_of_token hts (ht u hu) hn
  have hscan := hscans 1 []
  rwa [List.append_nil, scan, List.append_nil] at hscan

/-! ## What a report says -/

variable {i : Instruction} {p : Program}

/-- The entries are those of a tree on a line, whose nodes stand at the places in its text. -/
structure Lists (os : List Occurrence) (line : Nat) (e : Expr) (places : List (Expr × Nat)) : Prop where
  /-- The places are those of the nodes from left to right. -/
  nodes : places.map Prod.fst = e.inorder
  /-- At its place the text has the symbol of the node. -/
  symbols : ∀ place ∈ places, Expr.Marks e.render 1 place
  /-- A symbol ends before the next one begins. -/
  ordered : places.Pairwise fun a b => a.2 + a.1.symbol.length ≤ b.2
  /-- There is an entry for each arithmetic node. -/
  entries : os = (operatorsAt places).map fun (name, column) => ⟨name, line, column, e.render⟩
  increasing : os.Pairwise (·.column < ·.column)
  /-- No entry has a column within another symbol, such as a literal. -/
  apart : ∀ place ∈ places, place.1.reportName? = none →
    ∀ o ∈ os, o.column < place.2 ∨ place.2 + place.1.symbol.length ≤ o.column

inductive Says (i : Instruction) : List Occurrence → Option ControlStructure → Prop where
  | assign {e : Expr} {os : List Occurrence} {places : List (Expr × Nat)} :
    i.kind = .assign → i.value = some e → Lists os i.line e places → Says i os none
  | branch {c : Expr} {os : List Occurrence} {places : List (Expr × Nat)} :
    i.kind = .branch → i.argumentExpr = some c → Lists os i.line c places →
      Says i os (some ⟨"SI", i.line, c.render⟩)
  | loop {c : Expr} {os : List Occurrence} {places : List (Expr × Nat)} :
    i.kind = .loop → i.argumentExpr = some c → Lists os i.line c places →
      Says i os (some ⟨"MIENTRAS", i.line, c.render⟩)
  | other : i.kind = .display ∨ i.kind = .input → Says i [] none

theorem operatorsOf_eq (hts : Token.ofSource source = .ok ts) (h : e.Spelled ts)
    (htext : scannedText? i = some e.render) : operatorsOf i =
      (operatorsAt (e.placesFrom 1)).map fun (name, column) => ⟨name, i.line, column, e.render⟩ := by
  simp only [operatorsOf, htext, scan_of_spelled hts h]

theorem lists_operatorsOf (hts : Token.ofSource source = .ok ts) (h : e.Spelled ts)
    (htext : scannedText? i = some e.render) : Lists (operatorsOf i) i.line e (e.placesFrom 1) where
  nodes := e.map_fst_placesFrom 1
  symbols place := Expr.marks_of_mem_placesFrom
  ordered := e.pairwise_placesFrom 1
  entries := operatorsOf_eq hts h htext
  increasing := by
    rw [operatorsOf_eq hts h htext, List.pairwise_map]
    exact pairwise_operatorsAt (e.pairwise_placesFrom 1)
  apart place hplace hnone := by
    rw [operatorsOf_eq hts h htext, List.forall_mem_map]
    intro o ho
    exact apart_of_mem_operatorsAt (e.pairwise_placesFrom 1) hplace hnone ho

theorem exists_condition {depth : Nat} (hts : Token.ofSource source = .ok ts)
    (hi : ∀ e ∈ i.expressions, e.Spelled ts) (h : i.WellFormed depth) (hblock : i.kind.hasBlock) :
    ∃ c, i.argumentExpr = some c ∧ structureOf? i = some ⟨i.kind.keyword, i.line, c.render⟩ ∧
      Lists (operatorsOf i) i.line c (c.placesFrom 1) := by
  have hkind : i.kind = .branch ∨ i.kind = .loop := by
    cases hkind : i.kind <;> simp [hkind, InstructionKind.hasBlock] at hblock ⊢
  obtain ⟨c, hc, hrender⟩ := h.argument (by rcases hkind with hkind | hkind <;> simp [hkind])
  refine ⟨c, hc, by rw [structureOf?, if_pos hblock, hrender], lists_operatorsOf hts (hi c ?_) ?_⟩
  · simp [Instruction.expressions, hc]
  · rcases hkind with hkind | hkind <;> simp [scannedText?, hkind, hrender]

theorem says_of_wellFormed {depth : Nat} (hts : Token.ofSource source = .ok ts)
    (hi : ∀ e ∈ i.expressions, e.Spelled ts) (h : i.WellFormed depth) :
    Says i (operatorsOf i) (structureOf? i) := by
  cases hkind : i.kind with
  | assign =>
    obtain ⟨e, he⟩ := Option.isSome_iff_exists.mp (h.value.mpr hkind)
    have hlists : Lists (operatorsOf i) i.line e (e.placesFrom 1) :=
      lists_operatorsOf hts (hi e (by simp [Instruction.expressions, he]))
        (by simp [scannedText?, hkind, he])
    rw [structureOf?, hkind]
    exact .assign hkind he hlists
  | branch =>
    obtain ⟨c, hc, hstructure, hlists⟩ := exists_condition hts hi h (by rw [hkind]; rfl)
    rw [hstructure, hkind]
    exact .branch hkind hc hlists
  | loop =>
    obtain ⟨c, hc, hstructure, hlists⟩ := exists_condition hts hi h (by rw [hkind]; rfl)
    rw [hstructure, hkind]
    exact .loop hkind hc hlists
  | display =>
    rw [structureOf?, operatorsOf, scannedText?, hkind]
    exact .other (.inl hkind)
  | input =>
    rw [structureOf?, operatorsOf, scannedText?, hkind]
    exact .other (.inr hkind)

/-- The report of a program that was read says of each instruction what there is to say, from the first one to
the last. -/
theorem entries_are_nodes (h : Program.ofSource source = .ok p) :
    ∃ said : List (List Occurrence × Option ControlStructure),
      List.Forall₂ (fun e s => Says e.2 s.1 s.2) (Instruction.listing p.instructions) said ∧
      (ofProgram p).operators = said.flatMap Prod.fst ∧
      (ofProgram p).structures = said.filterMap Prod.snd ∧
      (Instruction.listing p.instructions).Pairwise fun a b => a.1 < b.1 ∧ a.2.line < b.2.line := by
  obtain ⟨ts, hts, hspelled⟩ := Program.spelled_of_ofSource h
  refine ⟨(Instruction.listing p.instructions).map fun e => (operatorsOf e.2, structureOf? e.2),
    ?_, ?_, ?_, ?_⟩
  · rw [List.forall₂_map_right_iff, List.forall₂_same]
    rintro ⟨path, i⟩ hi
    have hwf := checkInstructions_eq_none_iff.mp p.instructions_valid path i
      (Instruction.mem_listing_iff.mp hi)
    exact says_of_wellFormed hts (Instruction.Everywhere.of_mem_listing hspelled hi).self hwf
  · rw [List.flatMap_map, ofProgram, List.flatMap_map]
  · rw [List.filterMap_map, ofProgram, List.filterMap_map]
    rfl
  · exact (Instruction.pairwise_listing p.instructions).and (Program.pairwise_lines h)

/-- Signs in literals, one of them after a quote that is written twice, are not in the report, and neither is
the operator of an output. -/
theorem entries_are_nodes_quoted : ∃ p said,
    Program.ofSource "t = \"a-\"\"+\"\nSI t = \"/\" O -(1 + 2) < 4\nMOSTRAR 5 * 6\nFINSI" = .ok p ∧
    List.Forall₂ (fun e s => Says e.2 s.1 s.2) (Instruction.listing p.instructions) said ∧
    (ofProgram p).operators = said.flatMap Prod.fst ∧
    (ofProgram p).operators.map (fun o => (o.operator, o.line, o.column)) =
      [("Resta", 2, 11), ("Suma", 2, 15)] := by
  have hentries : (Program.ofSource
      "t = \"a-\"\"+\"\nSI t = \"/\" O -(1 + 2) < 4\nMOSTRAR 5 * 6\nFINSI" >>= fun p =>
        .ok ((ofProgram p).operators.map fun o => (o.operator, o.line, o.column))) =
      .ok [("Resta", 2, 11), ("Suma", 2, 15)] := by
    decide +kernel
  obtain ⟨p, hp, hcolumns⟩ := Except.bind_eq_ok_iff.mp hentries
  obtain ⟨said, hsaid, hoperators, -⟩ := entries_are_nodes hp
  exact ⟨p, said, hp, hsaid, hoperators, Except.ok.inj hcolumns⟩

end Report
end Pseudocode
