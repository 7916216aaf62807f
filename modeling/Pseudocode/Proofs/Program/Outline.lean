import Mathlib.Data.List.DropRight
import Pseudocode.Proofs.Directive.Spelled
import Pseudocode.Proofs.Instruction.Layout
import Pseudocode.Proofs.Program.Offences
import Pseudocode.Proofs.Program.SameShape

/-! # The outline of a program

What is read off tokens depends on their kinds, their lexemes and the lines they stand on. How many line
breaks stand in a row makes no difference, nor do line breaks at both ends, nor the places of the tokens;
these show only in the lines that instructions and directives remember. So blank lines, comments, indentation
and blanks between tokens never change a program.
-/

namespace Pseudocode

open Directive (onLine onLine_iff EndsLine)

variable {t u eof eof' : Token} {ts us ts' us' vs row row' : List Token}

/-! ## Outlines -/

namespace Token

/-- What matters of a token: its kind and its lexeme, and of a line break only that it is one. -/
def mark (t : Token) : Option (TokenKind × String) :=
  if t.kind = .newline then none else some t.spelled

def collapse : List Token → List Token
  | [] => []
  | t :: ts =>
    if t.kind = .newline ∧ ∃ u ∈ ts.head?, u.kind = .newline then collapse ts else t :: collapse ts

/-- What matters of tokens: each run of line breaks is collapsed to one, and those at both ends are
dropped. -/
def outline (ts : List Token) : List (Option (TokenKind × String)) :=
  (((collapse ts).dropWhile (·.kind = .newline)).rdropWhile (·.kind = .newline)).map mark

/-! ## The lines that an outline leaves -/

/-- The lists have the same lines, and none of them begins a line or both do. -/
structure SameRows (ts us : List Token) : Prop where
  rows : Token.rows ts = Token.rows us
  head : ts.head?.any onLine = us.head?.any onLine

theorem SameRows.cons (h : SameRows ts us) (t : Token) : SameRows (t :: ts) (t :: us) :=
  ⟨by simp only [Token.rows, h.rows, h.head], rfl⟩

theorem SameRows.append (h : SameRows ts us) (vs : List Token) : SameRows (vs ++ ts) (vs ++ us) := by
  induction vs with
  | nil => exact h
  | cons v vs ih => exact ih.cons v

theorem not_onLine_of_newline (ht : t.kind = .newline) : onLine t = false := by
  simp [onLine, ht]

theorem sameRows_collapse (ts us : List Token) : SameRows (collapse ts ++ us) (ts ++ us) := by
  induction ts with
  | nil => exact ⟨rfl, rfl⟩
  | cons t ts ih =>
    rw [collapse]
    split
    case isTrue h =>
      -- a line break goes, and what comes next is a line break too: neither begins a line
      obtain ⟨ht, u, hu, hnewline⟩ := h
      obtain ⟨ts, rfl⟩ := List.head?_eq_some_iff.mp hu
      have hhead := ih.head
      rw [List.cons_append, List.head?_cons, Option.any_some, not_onLine_of_newline hnewline] at hhead
      refine ⟨ih.rows.trans (rows_newline ht).symm, hhead.trans ?_⟩
      rw [List.cons_append, List.head?_cons, Option.any_some, not_onLine_of_newline ht]
    case isFalse => exact ih.cons t

theorem rows_dropWhile (ts us : List Token) :
    Token.rows (ts.dropWhile (·.kind = .newline) ++ us) = Token.rows (ts ++ us) := by
  have hnewlines : ∀ t ∈ ts.takeWhile (·.kind = .newline), t.kind = .newline := fun t ht => by
    simpa using List.all_eq_true.mp List.all_takeWhile t ht
  rw [← rows_newlines hnewlines, ← List.append_assoc, List.takeWhile_append_dropWhile]

theorem rows_rdropWhile (ts : List Token) (hus : EndsLine us) :
    Token.rows (ts.rdropWhile (·.kind = .newline) ++ us) = Token.rows (ts ++ us) := by
  -- from the back, as line breaks are dropped there
  induction ts using List.reverseRecOn with
  | nil => rfl
  | append_singleton ts t ih =>
    by_cases ht : t.kind = .newline
    · have hsame : SameRows us (t :: us) :=
        ⟨(rows_newline ht).symm, (any_head_of_endsLine hus).trans (not_onLine_of_newline ht).symm⟩
      rw [List.rdropWhile_concat_pos _ _ _ (by simpa using ht), ih, List.append_assoc,
        List.singleton_append, (hsame.append ts).rows]
    · rw [List.rdropWhile_concat_neg _ _ _ (by simpa using ht)]

/-- The line breaks that the outline leaves out make no difference to the lines. -/
theorem rows_outline (ts : List Token) (hus : EndsLine us) :
    Token.rows (((collapse ts).dropWhile (·.kind = .newline)).rdropWhile (·.kind = .newline) ++ us) =
      Token.rows (ts ++ us) := by
  rw [rows_rdropWhile _ hus, rows_dropWhile, (sameRows_collapse ts us).rows]

theorem kind_eq_of_mark (h : t.mark = u.mark) : t.kind = u.kind := by
  unfold mark at h
  split at h
  case isTrue ht =>
    split at h
    case isTrue hu => rw [ht, hu]
    case isFalse => cases h
  case isFalse =>
    split at h
    case isTrue => cases h
    case isFalse => exact congrArg Prod.fst (Option.some.inj h)

theorem spelled_eq_of_mark (h : t.mark = u.mark) (ht : t.kind ≠ .newline) : t.spelled = u.spelled := by
  have hu : u.kind ≠ .newline := kind_eq_of_mark h ▸ ht
  rw [mark, mark, if_neg ht, if_neg hu] at h
  exact Option.some.inj h

theorem onLine_eq_of_kind (h : t.kind = u.kind) : onLine t = onLine u := by
  rw [onLine, onLine, h]

theorem map_spelled_modifyHead (t : Token) (rows : List (List Token)) :
    (rows.modifyHead (t :: ·)).map (List.map spelled) =
      (rows.map (List.map spelled)).modifyHead (t.spelled :: ·) := by
  cases rows <;> rfl

theorem map_rows_of_mark (h : ts.map mark = ts'.map mark) (hus : AtEnd us) (hus' : AtEnd us') :
    (Token.rows (ts ++ us)).map (List.map spelled) = (Token.rows (ts' ++ us')).map (List.map spelled) ∧
      (ts ++ us).head?.any onLine = (ts' ++ us').head?.any onLine := by
  induction ts generalizing ts' with
  | nil =>
    obtain rfl := List.map_eq_nil_iff.mp h.symm
    rw [List.nil_append, List.nil_append, rows_of_atEnd hus, rows_of_atEnd hus',
      any_head_of_endsLine (EndsWith.atEnd hus).endsLine,
      any_head_of_endsLine (EndsWith.atEnd hus').endsLine]
    exact ⟨rfl, rfl⟩
  | cons t ts ih =>
    obtain ⟨t', ts', rfl, ht, hts⟩ := List.map_eq_cons_iff.mp h.symm
    obtain ⟨hrows, hhead⟩ := ih hts.symm
    have hkind : t'.kind = t.kind := kind_eq_of_mark ht
    refine ⟨?_, (onLine_eq_of_kind hkind).symm⟩
    simp only [List.cons_append, Token.rows, hkind, hhead]
    split
    case isTrue => rfl
    case isFalse =>
      split
      case isTrue => exact hrows
      case isFalse hnewline =>
        have hspelled := spelled_eq_of_mark ht (hkind ▸ hnewline)
        split
        case isTrue => rw [map_spelled_modifyHead, map_spelled_modifyHead, hrows, hspelled]
        case isFalse => simp only [List.map_cons, List.map_nil, hrows, hspelled]

theorem map_rows_of_outline (h : outline ts = outline ts') (heof : eof.kind = .endOfInput)
    (heof' : eof'.kind = .endOfInput) :
    (Token.rows (ts ++ [eof])).map (List.map spelled) =
      (Token.rows (ts' ++ [eof'])).map (List.map spelled) := by
  have hend : AtEnd [eof] := atEnd_singleton heof
  have hend' : AtEnd [eof'] := atEnd_singleton heof'
  rw [← rows_outline ts (EndsWith.atEnd hend).endsLine, ← rows_outline ts' (EndsWith.atEnd hend').endsLine]
  exact (map_rows_of_mark h hend hend').1

end Token

/-! ## Lines with the same kinds and lexemes -/

def Directive.unlined (d : Directive) : Directive :=
  { d with line := 0 }

theorem Instruction.unlined_branch (e : Expr) (body : List Instruction)
    (otherwise : Option (List Instruction)) (line : Nat) :
    (branch e body otherwise line).unlined =
      branch e (body.map unlined) (otherwise.map (List.map unlined)) 0 := by
  rw [branch, unlined, unlinedBlock_eq, unlinedBlock_eq]
  rfl

theorem Instruction.unlined_loop (e : Expr) (body : List Instruction) (line : Nat) :
    (loop e body line).unlined = loop e (body.map unlined) 0 := by
  rw [loop, unlined, unlinedBlock_eq, unlinedBlock_eq]
  rfl

def Content.unlined (c : Content) : Content :=
  ⟨c.instructions.map Instruction.unlined, c.directives.map Directive.unlined⟩

namespace Line

variable {l m : Line} {ls ms : List Line} {xs ys : List (List Token)} {n : Nat}
  {is : List Instruction}

def unlined : Line → Line
  | .plain i => .plain i.unlined
  | .branch e _ => .branch e 0
  | .loop e _ => .loop e 0
  | .close k => .close k
  | .directive d => .directive d.unlined

theorem exists_head_phrase {d : Phrase} (hg : d.Grammatical)
    (hrow : row'.map Token.spelled = (t :: d.tokens).map Token.spelled) :
    ∃ (t' : Token) (d' : Phrase), row' = t' :: d'.tokens ∧ t'.kind = t.kind ∧ d'.Grammatical ∧
      d'.expr = d.expr ∧ d'.nesting = d.nesting := by
  obtain ⟨t', row', rfl, ht', hrow⟩ := List.map_eq_cons_iff.mp hrow
  obtain ⟨d', rfl, hg', hexpr, hnesting, -⟩ := hg.exists_alike (Token.map_kind_of_spelled hrow)
  exact ⟨t', d', rfl, congrArg Prod.fst ht', hg', hexpr, hnesting⟩

/-- The line has the same on it, wherever its tokens stand. -/
theorem Spelled.respelled (h : Spelled row l) (hrow : row'.map Token.spelled = row.map Token.spelled) :
    ∃ l', Spelled row' l' ∧ l'.unlined = l.unlined := by
  cases h with
  | assign ht he hg hn =>
    obtain ⟨t', row', rfl, ht', hrow⟩ := List.map_eq_cons_iff.mp hrow
    obtain ⟨equal', d', rfl, he', hg', hexpr, hnesting⟩ := exists_head_phrase hg hrow
    have hkind := (congrArg Prod.fst ht').trans ht
    exact ⟨_, .assign hkind (he'.trans he) hg' (hnesting ▸ hn), by rw [hexpr]; rfl⟩
  | display ht hg hn =>
    obtain ⟨t', d', rfl, ht', hg', hexpr, hnesting⟩ := exists_head_phrase hg hrow
    exact ⟨_, .display (ht'.trans ht) hg' (hnesting ▸ hn), by rw [hexpr]; rfl⟩
  | input ht hu =>
    obtain ⟨t', row', rfl, ht', hrow⟩ := List.map_eq_cons_iff.mp hrow
    obtain ⟨u', rfl, hu'⟩ := List.map_eq_singleton_iff.mp hrow
    exact ⟨_, .input ((congrArg Prod.fst ht').trans ht) ((congrArg Prod.fst hu').trans hu), rfl⟩
  | branch ht hg hn =>
    obtain ⟨t', d', rfl, ht', hg', hexpr, hnesting⟩ := exists_head_phrase hg hrow
    exact ⟨_, .branch (ht'.trans ht) hg' (hnesting ▸ hn), by rw [hexpr]; rfl⟩
  | loop ht hg hn =>
    obtain ⟨t', d', rfl, ht', hg', hexpr, hnesting⟩ := exists_head_phrase hg hrow
    exact ⟨_, .loop (ht'.trans ht) hg' (hnesting ▸ hn), by rw [hexpr]; rfl⟩
  | close ht =>
    obtain ⟨t', rfl, ht'⟩ := List.map_eq_singleton_iff.mp hrow
    exact ⟨_, .close ((congrArg Prod.fst ht').trans ht), rfl⟩
  | directive ht hd =>
    obtain ⟨t', row', rfl, ht', hrow⟩ := List.map_eq_cons_iff.mp hrow
    obtain ⟨final, hd⟩ := hd
    exact ⟨_, .directive ((congrArg Prod.fst ht').trans ht)
      ⟨final, Directive.read_of_spelled hd hrow t'.span.line⟩, rfl⟩

theorem exists_respelled (h : List.Forall₂ Spelled xs ls)
    (hys : ys.map (List.map Token.spelled) = xs.map (List.map Token.spelled)) :
    ∃ ms, List.Forall₂ Spelled ys ms ∧ ms.map unlined = ls.map unlined := by
  induction h generalizing ys with
  | nil =>
    obtain rfl := List.map_eq_nil_iff.mp hys
    exact ⟨[], .nil, rfl⟩
  | cons hrow _ ih =>
    obtain ⟨row', ys, rfl, hrow', hys⟩ := List.map_eq_cons_iff.mp hys
    obtain ⟨m, hm, hunlined⟩ := hrow.respelled hrow'
    obtain ⟨ms, hms, hmap⟩ := ih hys
    exact ⟨m :: ms, .cons hm hms, by rw [List.map_cons, List.map_cons, hunlined, hmap]⟩

theorem map_directives_of_unlined (h : ms.map unlined = ls.map unlined) :
    (ms.filterMap directive?).map Directive.unlined = (ls.filterMap directive?).map Directive.unlined := by
  have hdirective : ∀ l : Line, l.directive?.map Directive.unlined = l.unlined.directive? := by
    intro l
    cases l <;> rfl
  have hmap : ∀ ls : List Line, (ls.filterMap directive?).map Directive.unlined =
      (ls.map unlined).filterMap directive? := by
    intro ls
    rw [List.map_filterMap, List.filterMap_map]
    exact List.filterMap_congr fun l _ => hdirective l
  rw [hmap, hmap, h]

theorem exists_of_unlined_plain {i : Instruction} (h : m.unlined = (Line.plain i).unlined) :
    ∃ j : Instruction, m = .plain j ∧ j.unlined = i.unlined := by
  cases m with
  | plain j => exact ⟨j, rfl, Line.plain.inj h⟩
  | _ => cases h

theorem exists_of_unlined_directive {d : Directive} (h : m.unlined = (Line.directive d).unlined) :
    ∃ d', m = .directive d' := by
  cases m with
  | directive d' => exact ⟨d', rfl⟩
  | _ => cases h

theorem exists_of_unlined_branch {e : Expr} {line : Nat}
    (h : m.unlined = (Line.branch e line).unlined) : ∃ line', m = .branch e line' := by
  cases m <;> cases h
  exact ⟨_, rfl⟩

theorem exists_of_unlined_loop {e : Expr} {line : Nat} (h : m.unlined = (Line.loop e line).unlined) :
    ∃ line', m = .loop e line' := by
  cases m <;> cases h
  exact ⟨_, rfl⟩

theorem exists_of_unlined_close {k : Keyword} {body rest : List Line}
    (h : ms.map unlined = (body ++ .close k :: rest).map unlined) :
    ∃ body' rest', ms = body' ++ .close k :: rest' ∧ body'.map unlined = body.map unlined ∧
      rest'.map unlined = rest.map unlined := by
  rw [List.map_append] at h
  obtain ⟨body', ms, rfl, hbody, hms⟩ := List.map_eq_append_iff.mp h
  obtain ⟨m, rest', rfl, hm, hrest⟩ := List.map_eq_cons_iff.mp hms
  cases m <;> cases hm
  exact ⟨body', rest', rfl, hbody, hrest⟩

/-- Lines that differ in nothing but what they remember of their places build the same instructions, but for
what these remember. -/
theorem Builds.of_unlined (h : Builds n ls is) (hms : ms.map unlined = ls.map unlined) :
    ∃ js, Builds n ms js ∧ js.map Instruction.unlined = is.map Instruction.unlined := by
  induction h generalizing ms with
  | nil =>
    obtain rfl := List.map_eq_nil_iff.mp hms
    exact ⟨[], .nil, rfl⟩
  | plain _ ih =>
    obtain ⟨m, ms, rfl, hm, htail⟩ := List.map_eq_cons_iff.mp hms
    obtain ⟨j, rfl, hj⟩ := exists_of_unlined_plain hm
    obtain ⟨js, hjs, hmap⟩ := ih htail
    exact ⟨j :: js, .plain hjs, by rw [List.map_cons, List.map_cons, hj, hmap]⟩
  | directive _ ih =>
    obtain ⟨m, ms, rfl, hm, htail⟩ := List.map_eq_cons_iff.mp hms
    obtain ⟨d', rfl⟩ := exists_of_unlined_directive hm
    obtain ⟨js, hjs, hmap⟩ := ih htail
    exact ⟨js, .directive hjs, hmap⟩
  | branch _ _ ihb ih =>
    obtain ⟨m, ms, rfl, hm, htail⟩ := List.map_eq_cons_iff.mp hms
    obtain ⟨line', rfl⟩ := exists_of_unlined_branch hm
    obtain ⟨body', rest', rfl, hbody, hrest⟩ := exists_of_unlined_close htail
    obtain ⟨inner', hinner, hmapInner⟩ := ihb hbody
    obtain ⟨js, hjs, hmap⟩ := ih hrest
    refine ⟨_, .branch hinner hjs, ?_⟩
    simp only [List.map_cons, Instruction.unlined_branch, Option.map_none, hmapInner, hmap]
  | branchElse _ _ _ ihb iho ih =>
    obtain ⟨m, ms, rfl, hm, htail⟩ := List.map_eq_cons_iff.mp hms
    obtain ⟨line', rfl⟩ := exists_of_unlined_branch hm
    obtain ⟨body', rest', rfl, hbody, hrest⟩ := exists_of_unlined_close htail
    obtain ⟨otherwise', rest', rfl, hotherwise, hrest⟩ := exists_of_unlined_close hrest
    obtain ⟨inner', hinner, hmapInner⟩ := ihb hbody
    obtain ⟨inner'', hinner', hmapInner'⟩ := iho hotherwise
    obtain ⟨js, hjs, hmap⟩ := ih hrest
    refine ⟨_, .branchElse hinner hinner' hjs, ?_⟩
    simp only [List.map_cons, Instruction.unlined_branch, Option.map_some, hmapInner, hmapInner', hmap]
  | loop _ _ ihb ih =>
    obtain ⟨m, ms, rfl, hm, htail⟩ := List.map_eq_cons_iff.mp hms
    obtain ⟨line', rfl⟩ := exists_of_unlined_loop hm
    obtain ⟨body', rest', rfl, hbody, hrest⟩ := exists_of_unlined_close htail
    obtain ⟨inner', hinner, hmapInner⟩ := ihb hbody
    obtain ⟨js, hjs, hmap⟩ := ih hrest
    refine ⟨_, .loop hinner hjs, ?_⟩
    simp only [List.map_cons, Instruction.unlined_loop, hmapInner, hmap]

end Line

/-! ## Contents and programs with the same outline -/

variable {c : Content} {source source' : String} {d d' : Directive} {p p' : Program}

theorem Content.exists_of_outline (heof : eof.kind = .endOfInput) (heof' : eof'.kind = .endOfInput)
    (h : Token.outline us = Token.outline us') (hc : Content.ofTokens (us ++ [eof]) = .ok c) :
    ∃ c', Content.ofTokens (us' ++ [eof']) = .ok c' ∧ c'.unlined = c.unlined := by
  obtain ⟨ls, hls, hbuilds, hdirectives⟩ := Content.ofTokens_eq_ok_iff_builds.mp hc
  obtain ⟨ms, hms, hmap⟩ := Line.exists_respelled hls (Token.map_rows_of_outline h heof heof').symm
  obtain ⟨js, hjs, hunlined⟩ := hbuilds.of_unlined hmap
  refine ⟨⟨js, ms.filterMap Line.directive?⟩,
    Content.ofTokens_eq_ok_iff_builds.mpr ⟨ms, hms, hjs, rfl⟩, ?_⟩
  rw [Content.unlined, Content.unlined, hunlined, Line.map_directives_of_unlined hmap, hdirectives]

theorem Directive.WellFormed.of_unlined (h : d.WellFormed) (hd : d'.unlined = d.unlined) :
    d'.WellFormed := by
  obtain ⟨kind, value, index, line⟩ := d
  obtain ⟨kind', value', index', line'⟩ := d'
  cases hd
  exact ⟨h.value, h.index⟩

theorem Directive.forall_wellFormed_of_unlined {ds ds' : List Directive}
    (h : ds'.map Directive.unlined = ds.map Directive.unlined) (hds : ∀ d ∈ ds, d.WellFormed) :
    ∀ d ∈ ds', d.WellFormed := by
  intro d' hd'
  have hmem : d'.unlined ∈ ds.map Directive.unlined := h ▸ List.mem_map_of_mem hd'
  obtain ⟨d, hd, heq⟩ := List.mem_map.mp hmem
  exact (hds d hd).of_unlined heq.symm

/-- Sources whose tokens have the same outline are the same program, but for the lines that it remembers. -/
theorem Program.exists_of_outline (heof : eof.kind = .endOfInput) (heof' : eof'.kind = .endOfInput)
    (h : Token.outline us = Token.outline us') (hts : Token.ofSource source = .ok (us ++ [eof]))
    (hts' : Token.ofSource source' = .ok (us' ++ [eof'])) (hp : Program.ofSource source = .ok p) :
    ∃ p', Program.ofSource source' = .ok p' ∧
      p.instructions.map Instruction.unlined = p'.instructions.map Instruction.unlined ∧
      p.directives.map Directive.unlined = p'.directives.map Directive.unlined := by
  obtain ⟨ts, c, hts₀, hc, hi, hd⟩ := ofSource_eq_ok_iff.mp hp
  obtain rfl := Except.ok.inj (hts.symm.trans hts₀)
  obtain ⟨c', hc', hunlined⟩ := Content.exists_of_outline heof heof' h hc
  obtain ⟨hinstructions, hdirectives⟩ := Content.mk.inj hunlined
  have hwf : ∀ d ∈ c.directives, d.WellFormed :=
    exists_checkDirectives_iff.mp ⟨p.targets, hd ▸ p.directives_valid⟩
  have hwf' := Directive.forall_wellFormed_of_unlined hdirectives hwf
  have hvalid := checkInstructions_of_ofTokens hts' hc'
  obtain ⟨targets, htargets⟩ := exists_checkDirectives_iff.mpr hwf'
  refine ⟨⟨c'.instructions, c'.directives, targets, hvalid, htargets⟩,
    ofSource_eq_ok_iff.mpr ⟨_, c', hts', hc', rfl, rfl⟩, ?_, ?_⟩
  · rw [hi, hinstructions]
  · rw [hd, hdirectives]

/-- Of tokens up to the end of input, only the outline is of account: tokens with the same outline are read
alike, and so are sources with such tokens. What was read differs in nothing but the lines that instructions
and directives remember. -/
theorem Content.unlined_of_outline (heof : eof.kind = .endOfInput) (heof' : eof'.kind = .endOfInput)
    (h : Token.outline us = Token.outline us') :
    ((∃ c, Content.ofTokens (us ++ [eof]) = .ok c) ↔ ∃ c, Content.ofTokens (us' ++ [eof']) = .ok c) ∧
    (∀ c c', Content.ofTokens (us ++ [eof]) = .ok c → Content.ofTokens (us' ++ [eof']) = .ok c' →
      c.instructions.map Instruction.unlined = c'.instructions.map Instruction.unlined ∧
      c.directives.map Directive.unlined = c'.directives.map Directive.unlined) ∧
    ∀ source source', Token.ofSource source = .ok (us ++ [eof]) →
      Token.ofSource source' = .ok (us' ++ [eof']) →
        ((∃ p, Program.ofSource source = .ok p) ↔ ∃ p, Program.ofSource source' = .ok p) ∧
        ∀ p p', Program.ofSource source = .ok p → Program.ofSource source' = .ok p' →
          p.instructions.map Instruction.unlined = p'.instructions.map Instruction.unlined ∧
          p.directives.map Directive.unlined = p'.directives.map Directive.unlined := by
  refine ⟨⟨?_, ?_⟩, fun c c' hc hc' => ?_, fun source source' hts hts' => ⟨⟨?_, ?_⟩, fun p p' hp hp' => ?_⟩⟩
  · rintro ⟨c, hc⟩
    obtain ⟨c', hc', -⟩ := Content.exists_of_outline heof heof' h hc
    exact ⟨c', hc'⟩
  · rintro ⟨c', hc'⟩
    obtain ⟨c, hc, -⟩ := Content.exists_of_outline heof' heof h.symm hc'
    exact ⟨c, hc⟩
  · obtain ⟨c₁, hc₁, hunlined⟩ := Content.exists_of_outline heof heof' h hc
    obtain rfl := Except.ok.inj (hc₁.symm.trans hc')
    exact Content.mk.inj hunlined.symm
  · rintro ⟨p, hp⟩
    obtain ⟨p', hp', -⟩ := Program.exists_of_outline heof heof' h hts hts' hp
    exact ⟨p', hp'⟩
  · rintro ⟨p', hp'⟩
    obtain ⟨p, hp, -⟩ := Program.exists_of_outline heof' heof h.symm hts' hts hp'
    exact ⟨p, hp⟩
  · obtain ⟨p₁, hp₁, hsame⟩ := Program.exists_of_outline heof heof' h hts hts' hp
    obtain rfl := Except.ok.inj (hp₁.symm.trans hp')
    exact hsame

theorem Content.unlined_of_outline_blanks : ∃ us us' eof eof' c c',
    Token.ofSource "SI x > 0\nMOSTRAR x\nFINSI" = .ok (us ++ [eof]) ∧ eof.kind = .endOfInput ∧
    Token.ofSource "# signo\n\n SI x>0\n\n   MOSTRAR x # x\nFINSI\n" = .ok (us' ++ [eof']) ∧
    eof'.kind = .endOfInput ∧ Token.outline us = Token.outline us' ∧
    Content.ofTokens (us ++ [eof]) = .ok c ∧ Content.ofTokens (us' ++ [eof']) = .ok c' ∧
    c.instructions.map Instruction.line = [1] ∧ c'.instructions.map Instruction.line = [3] ∧
    c.instructions.map Instruction.unlined = c'.instructions.map Instruction.unlined ∧
    c.directives.map Directive.unlined = c'.directives.map Directive.unlined := by
  have hts : Token.ofSource "SI x > 0\nMOSTRAR x\nFINSI" =
      .ok ((Token.scan "SI x > 0\nMOSTRAR x\nFINSI").1.dropLast ++
        [⟨.endOfInput, "", ⟨3, 6, 24, 24⟩⟩]) := by
    decide +kernel
  have hts' : Token.ofSource "# signo\n\n SI x>0\n\n   MOSTRAR x # x\nFINSI\n" =
      .ok ((Token.scan "# signo\n\n SI x>0\n\n   MOSTRAR x # x\nFINSI\n").1.dropLast ++
        [⟨.endOfInput, "", ⟨7, 1, 41, 41⟩⟩]) := by
    decide +kernel
  have houtline : Token.outline (Token.scan "SI x > 0\nMOSTRAR x\nFINSI").1.dropLast =
      Token.outline
        (Token.scan "# signo\n\n SI x>0\n\n   MOSTRAR x # x\nFINSI\n").1.dropLast := by
    decide +kernel
  have hc : Content.ofTokens ((Token.scan "SI x > 0\nMOSTRAR x\nFINSI").1.dropLast ++
      [⟨.endOfInput, "", ⟨3, 6, 24, 24⟩⟩]) =
        .ok ⟨[.branch (.binary (.var "x") (.compare .greater) (.literal (.integer 0)))
          [.display (.var "x") 2] none 1], []⟩ := by
    cbv
  have hc' : Content.ofTokens
      ((Token.scan "# signo\n\n SI x>0\n\n   MOSTRAR x # x\nFINSI\n").1.dropLast ++
        [⟨.endOfInput, "", ⟨7, 1, 41, 41⟩⟩]) =
        .ok ⟨[.branch (.binary (.var "x") (.compare .greater) (.literal (.integer 0)))
          [.display (.var "x") 5] none 3], []⟩ := by
    cbv
  exact ⟨_, _, _, _, _, _, hts, rfl, hts', rfl, houtline, hc, hc', rfl, rfl,
    (Content.unlined_of_outline rfl rfl houtline).2.1 _ _ hc hc'⟩

end Pseudocode
