import Mathlib
import Pseudocode.Proofs.Instruction.Layout
import Pseudocode.Proofs.Token.Spelling

/-! # Directives taken out of a program

Lines with a directive build nothing, wherever they stand, so the other lines build the same without them.
Reading a program therefore amounts to reading the lines with directives and the other lines, each apart.
-/

namespace Pseudocode

open Directive (onLine onLine_iff)

variable {t : Token} {row us vs : List Token} {n : Nat} {is : List Instruction} {ds : List Directive}

/-! ## Lines with their line breaks -/

namespace Token

def lines (ts : List Token) : List (List Token) :=
  ts.splitBy fun t _ => t.kind ≠ .newline

def startsDirective (line : List Token) : Bool :=
  line.head?.any (·.kind = .directive)

def directiveLines (ts : List Token) : List Token :=
  ((lines ts).filter startsDirective).flatten

def otherLines (ts : List Token) : List Token :=
  ((lines ts).filter (!startsDirective ·)).flatten

theorem isChain_row (hrow : ∀ t ∈ row, onLine t) (t : Token) :
    (row ++ [t]).IsChain fun t _ => decide (t.kind ≠ .newline) = true := by
  rw [List.isChain_iff_getElem]
  intro i hi
  have hlt : i < row.length := by simpa using hi
  rw [List.getElem_append_left hlt, decide_eq_true_eq]
  exact (onLine_iff.mp (hrow _ (List.getElem_mem hlt))).1

theorem lines_row (hne : row ≠ []) (hrow : ∀ t ∈ row, onLine t) : lines row = [row] :=
  List.splitBy_of_isChain hne (isChain_row hrow (row.head hne)).left_of_append

theorem lines_append (hrow : ∀ t ∈ row, onLine t) (ht : t.kind = .newline) :
    lines (row ++ t :: us) = (row ++ [t]) :: lines us := by
  have hsplit : row ++ t :: us = (row ++ [t]) ++ us := by simp
  have hbreak : ∀ x ∈ (row ++ [t]).getLast?, ∀ y ∈ us.head?, decide (x.kind ≠ .newline) = false := by
    simp [ht]
  rw [lines, hsplit, List.splitBy_append hbreak, List.splitBy_of_isChain (by simp) (isChain_row hrow t)]
  rfl

theorem startsDirective_append (hne : row ≠ []) (us : List Token) :
    startsDirective (row ++ us) = startsDirective row := by
  cases row with
  | nil => exact absurd rfl hne
  | cons t row => rfl

theorem mem_of_mem_filter_lines {p : List Token → Bool} (h : t ∈ ((lines us).filter p).flatten) :
    t ∈ us := by
  obtain ⟨line, hline, ht⟩ := List.mem_flatten.mp h
  rw [← List.flatten_splitBy (fun t _ => t.kind ≠ .newline) us]
  exact List.mem_flatten_of_mem (List.mem_of_mem_filter hline) ht

/-- Tokens made of lines, of which the last one may have no line break. -/
inductive Lined : List Token → Prop where
  | nil : Lined []
  | last {row : List Token} : row ≠ [] → (∀ u ∈ row, onLine u) → Lined row
  | line {row us : List Token} {t : Token} : (∀ u ∈ row, onLine u) → t.kind = .newline → Lined us →
    Lined (row ++ t :: us)

theorem Lined.of_forall (hus : ∀ u ∈ us, u.kind ≠ .endOfInput) : Lined us := by
  induction hlen : us.length using Nat.strongRecOn generalizing us with
  | ind len ih =>
    obtain ⟨row, rest, rfl, hrow, hrest⟩ := Directive.exists_line us
    cases rest with
    | nil =>
      rw [List.append_nil]
      cases row with
      | nil => exact .nil
      | cons u row => exact .last (List.cons_ne_nil u row) hrow
    | cons t rest =>
      have ht : t.kind = .newline := by
        by_contra hnewline
        exact hrest t rfl (onLine_iff.mpr ⟨hnewline, hus t (by simp)⟩)
      have hlt : rest.length < len := by
        rw [← hlen, List.length_append, List.length_cons]
        omega
      exact .line hrow ht (ih _ hlt (fun u hu => hus u (by simp [hu])) rfl)

theorem rows_line (hne : row ≠ []) (hrow : ∀ t ∈ row, onLine t) (ht : t.kind = .newline) :
    Token.rows (row ++ t :: us) = row :: Token.rows us := by
  rw [rows_append hne hrow (EndsWith.newline ht).endsLine, rows_newline ht]

theorem rows_last (hne : row ≠ []) (hrow : ∀ t ∈ row, onLine t) (hvs : AtEnd vs) :
    Token.rows (row ++ vs) = [row] := by
  rw [rows_append hne hrow (EndsWith.atEnd hvs).endsLine, rows_of_atEnd hvs]

theorem rows_filter_lines {p : List Token → Bool} (hp : ∀ row us, row ≠ [] → p (row ++ us) = p row)
    (h : Lined us) (hvs : AtEnd vs) :
    Token.rows (((lines us).filter p).flatten ++ vs) = (Token.rows (us ++ vs)).filter p := by
  have hnil : Token.rows vs = [] := rows_of_atEnd hvs
  induction h with
  | nil =>
    rw [List.nil_append, hnil]
    exact hnil
  | last hne hrow =>
    rw [lines_row hne hrow, rows_last hne hrow hvs, List.filter_cons, List.filter_nil]
    split
    case isTrue => rw [List.flatten_singleton, rows_last hne hrow hvs]
    case isFalse => exact hnil
  | @line row us t hrow ht _ ih =>
    rw [lines_append hrow ht, List.append_assoc, List.cons_append]
    by_cases hne : row = []
    · subst hne
      rw [List.nil_append, List.nil_append, rows_newline ht, ← ih, List.filter_cons]
      split
      case isTrue => exact rows_newline ht
      case isFalse => rfl
    · rw [rows_line hne hrow ht, List.filter_cons, List.filter_cons, hp row [t] hne, ← ih]
      split
      case isTrue =>
        rw [List.flatten_cons, List.append_assoc, List.append_assoc, List.singleton_append,
          rows_line hne hrow ht]
      case isFalse => rfl

theorem rows_append_newline (h : Lined us) (ht : t.kind = .newline) (hvs : AtEnd vs)
    (ws : List Token) : Token.rows (us ++ t :: ws) = Token.rows (us ++ vs) ++ Token.rows ws := by
  induction h with
  | nil => rw [List.nil_append, List.nil_append, rows_newline ht, rows_of_atEnd hvs, List.nil_append]
  | last hne hrow => rw [rows_line hne hrow ht, rows_last hne hrow hvs, List.singleton_append]
  | @line row us u hrow hu _ ih =>
    rw [List.append_assoc, List.append_assoc, List.cons_append, List.cons_append]
    by_cases hne : row = []
    · rw [hne, List.nil_append, List.nil_append, rows_newline hu, rows_newline hu, ih]
    · rw [rows_line hne hrow hu, rows_line hne hrow hu, ih, List.cons_append]

end Token

/-! ## Lines that build nothing -/

namespace Line

variable {l : Line} {ls ms : List Line} {xs : List (List Token)} {k : Keyword}

def isDirective (l : Line) : Bool :=
  l.directive?.isSome

theorem Spelled.startsDirective_eq (h : Spelled row l) : Token.startsDirective row = l.isDirective := by
  cases h with
  | directive ht _ => simp [Token.startsDirective, isDirective, directive?, ht]
  | assign ht _ _ _ | display ht _ _ | input ht _ | branch ht _ _ | loop ht _ _ | close ht =>
    simp [Token.startsDirective, isDirective, directive?, ht]

/-- Lines can be told apart by their tokens, and put together again. -/
theorem exists_merged {ls₁ ls₂ : List Line}
    (h₁ : List.Forall₂ Spelled (xs.filter (!Token.startsDirective ·)) ls₁)
    (h₂ : List.Forall₂ Spelled (xs.filter Token.startsDirective) ls₂) :
    ∃ ls, List.Forall₂ Spelled xs ls ∧ ls.filter (!isDirective ·) = ls₁ ∧ ls.filter isDirective = ls₂ := by
  induction xs generalizing ls₁ ls₂ with
  | nil =>
    cases h₁
    cases h₂
    exact ⟨[], .nil, rfl, rfl⟩
  | cons row xs ih =>
    cases hrow : Token.startsDirective row
    · rw [List.filter_cons_of_pos (by simp [hrow])] at h₁
      rw [List.filter_cons_of_neg (by simp [hrow])] at h₂
      obtain ⟨l, ls₁, hl, hls₁, rfl⟩ := List.forall₂_cons_left_iff.mp h₁
      obtain ⟨ls, hls, rfl, rfl⟩ := ih hls₁ h₂
      have hdirective : l.isDirective = false := hl.startsDirective_eq ▸ hrow
      exact ⟨l :: ls, .cons hl hls, by simp [hdirective], by simp [hdirective]⟩
    · rw [List.filter_cons_of_neg (by simp [hrow])] at h₁
      rw [List.filter_cons_of_pos (by simp [hrow])] at h₂
      obtain ⟨l, ls₂, hl, hls₂, rfl⟩ := List.forall₂_cons_left_iff.mp h₂
      obtain ⟨ls, hls, rfl, rfl⟩ := ih h₁ hls₂
      have hdirective : l.isDirective = true := hl.startsDirective_eq ▸ hrow
      exact ⟨l :: ls, .cons hl hls, by simp [hdirective], by simp [hdirective]⟩

theorem Builds.append_left (h : Builds n ls is) (hms : ∀ l ∈ ms, ¬ (!l.isDirective) = true) :
    Builds n (ms ++ ls) is := by
  induction ms with
  | nil => exact h
  | cons l ms ih =>
    rw [List.forall_mem_cons] at hms
    cases l with
    | directive d => exact (ih hms.2).directive
    | _ => exact absurd rfl hms.1

theorem exists_of_filter_close {body rest : List Line}
    (h : ms.filter (!isDirective ·) = body ++ .close k :: rest) :
    ∃ body' rest', ms = body' ++ .close k :: rest' ∧ body'.filter (!isDirective ·) = body ∧
      rest'.filter (!isDirective ·) = rest := by
  obtain ⟨as, bs, rfl, rfl, hbs⟩ := List.filter_eq_append_iff.mp h
  obtain ⟨cs, rest', rfl, hcs, -, rfl⟩ := List.filter_eq_cons_iff.mp hbs
  refine ⟨as ++ cs, rest', (List.append_assoc ..).symm, ?_, rfl⟩
  rw [List.filter_append, List.filter_eq_nil_iff.mpr hcs, List.append_nil]

theorem Builds.filter (h : Builds n ls is) : Builds n (ls.filter (!isDirective ·)) is := by
  induction h with
  | nil => exact .nil
  | plain _ ih => exact .plain ih
  | directive _ ih => exact ih
  | branch _ _ ihb ih =>
    rw [List.filter_cons_of_pos rfl, List.filter_append, List.filter_cons_of_pos rfl]
    exact .branch ihb ih
  | branchElse _ _ _ ihb iho ih =>
    rw [List.filter_cons_of_pos rfl, List.filter_append, List.filter_cons_of_pos rfl, List.filter_append,
      List.filter_cons_of_pos rfl]
    exact .branchElse ihb iho ih
  | loop _ _ ihb ih =>
    rw [List.filter_cons_of_pos rfl, List.filter_append, List.filter_cons_of_pos rfl]
    exact .loop ihb ih

/-- Lines with a directive can stand anywhere. -/
theorem Builds.of_filter (h : Builds n (ls.filter (!isDirective ·)) is) : Builds n ls is := by
  -- along the other lines; the directives in front of each one are put back
  generalize hms : ls.filter (!isDirective ·) = ms at h
  induction h generalizing ls with
  | nil =>
    rw [← List.append_nil ls]
    exact Builds.nil.append_left (List.filter_eq_nil_iff.mp hms)
  | plain _ ih =>
    obtain ⟨as, bs, rfl, has, -, hbs⟩ := List.filter_eq_cons_iff.mp hms
    exact (ih hbs).plain.append_left has
  | directive _ _ =>
    obtain ⟨-, -, -, -, hdirective, -⟩ := List.filter_eq_cons_iff.mp hms
    cases hdirective
  | branch _ _ ihb ih =>
    obtain ⟨as, bs, rfl, has, -, hbs⟩ := List.filter_eq_cons_iff.mp hms
    obtain ⟨body, rest, rfl, hbody, hrest⟩ := exists_of_filter_close hbs
    exact ((ihb hbody).branch (ih hrest)).append_left has
  | branchElse _ _ _ ihb iho ih =>
    obtain ⟨as, bs, rfl, has, -, hbs⟩ := List.filter_eq_cons_iff.mp hms
    obtain ⟨body, rest, rfl, hbody, hrest⟩ := exists_of_filter_close hbs
    obtain ⟨otherwise, rest, rfl, hotherwise, hrest⟩ := exists_of_filter_close hrest
    exact ((ihb hbody).branchElse (iho hotherwise) (ih hrest)).append_left has
  | loop _ _ ihb ih =>
    obtain ⟨as, bs, rfl, has, -, hbs⟩ := List.filter_eq_cons_iff.mp hms
    obtain ⟨body, rest, rfl, hbody, hrest⟩ := exists_of_filter_close hbs
    exact ((ihb hbody).loop (ih hrest)).append_left has

theorem directives_filter (ls : List Line) :
    (ls.filter isDirective).filterMap directive? = ls.filterMap directive? := by
  rw [List.filterMap_filter]
  refine List.filterMap_congr fun l _ => ?_
  cases l <;> rfl

end Line

/-! ## Reading apart -/

/-- The instructions are built from the lines without a directive, and the directives are those on the other
lines. -/
theorem Content.ofTokens_eq_ok_iff_apart : Content.ofTokens us = .ok ⟨is, ds⟩ ↔
    (∃ ls, List.Forall₂ Line.Spelled ((Token.rows us).filter (!Token.startsDirective ·)) ls ∧
      Line.Builds maxNesting ls is) ∧
    ∃ ls, List.Forall₂ Line.Spelled ((Token.rows us).filter Token.startsDirective) ls ∧
      ls.filterMap Line.directive? = ds := by
  rw [Content.ofTokens_eq_ok_iff_builds]
  constructor
  · rintro ⟨ls, hls, hbuilds, hdirectives⟩
    refine ⟨⟨ls.filter (!Line.isDirective ·), ?_, hbuilds.filter⟩,
      ls.filter Line.isDirective, ?_, (Line.directives_filter ls).trans hdirectives⟩
    · exact List.rel_filter (fun _ _ h => by simp [h.startsDirective_eq]) hls
    · exact List.rel_filter (fun _ _ h => by simp [h.startsDirective_eq]) hls
  · rintro ⟨⟨ls₁, hls₁, hbuilds⟩, ls₂, hls₂, hdirectives⟩
    obtain ⟨ls, hls, rfl, rfl⟩ := Line.exists_merged hls₁ hls₂
    exact ⟨ls, hls, hbuilds.of_filter, (Line.directives_filter ls).symm.trans hdirectives⟩

/-- A source is read just as its lines with a directive and its other lines are, each apart or the ones with
a directive first. -/
theorem Content.ofTokens_hoisted {source : String} {ts : List Token} (hts : Token.ofSource source = .ok ts) :
    ∃ us eof, ts = us ++ [eof] ∧ eof.kind = .endOfInput ∧ ∀ is ds,
      (Content.ofTokens ts = .ok ⟨is, ds⟩ ↔
        Content.ofTokens (Token.otherLines us ++ [eof]) = .ok ⟨is, []⟩ ∧
        Content.ofTokens (Token.directiveLines us ++ [eof]) = .ok ⟨[], ds⟩) ∧
      ∀ t, t.kind = .newline → (Content.ofTokens ts = .ok ⟨is, ds⟩ ↔
        Content.ofTokens (Token.directiveLines us ++ t :: (Token.otherLines us ++ [eof])) =
          .ok ⟨is, ds⟩) := by
  obtain ⟨us, eof, rfl, heof, hus⟩ := Token.exists_append_of_ofSource hts
  have hend : AtEnd [eof] := atEnd_singleton heof
  have hlined := Token.Lined.of_forall hus
  have hother : Token.rows (Token.otherLines us ++ [eof]) =
      (Token.rows (us ++ [eof])).filter (!Token.startsDirective ·) :=
    Token.rows_filter_lines (fun _ us h => by rw [Token.startsDirective_append h us]) hlined hend
  have hdirective : Token.rows (Token.directiveLines us ++ [eof]) =
      (Token.rows (us ++ [eof])).filter Token.startsDirective :=
    Token.rows_filter_lines (fun _ us h => Token.startsDirective_append h us) hlined hend
  refine ⟨us, eof, rfl, heof, fun is ds => ⟨?_, fun t ht => ?_⟩⟩
  · rw [Content.ofTokens_eq_ok_iff_apart, Content.ofTokens_eq_ok_iff_apart,
      Content.ofTokens_eq_ok_iff_apart, hother, hdirective]
    -- each part has nothing left of the other kind
    simp [List.filter_filter, Line.Builds.nil]
  · have hlined : Token.Lined (Token.directiveLines us) :=
      .of_forall fun u hu => hus u (Token.mem_of_mem_filter_lines hu)
    rw [Content.ofTokens_eq_ok_iff_apart, Content.ofTokens_eq_ok_iff_apart,
      Token.rows_append_newline hlined ht hend, hother, hdirective]
    simp [List.filter_filter]

theorem Content.ofTokens_hoisted_branch : ∃ us eof,
    Token.ofSource "SI x > 0\n#CONFIG COLOR_SI HFF0000 1\nMOSTRAR x\nFINSI" = .ok (us ++ [eof]) ∧
    eof.kind = .endOfInput ∧
    Content.ofTokens (Token.otherLines us ++ [eof]) =
      .ok ⟨[.branch (.binary (.var "x") (.compare .greater) (.literal (.integer 0)))
        [.display (.var "x") 3] none 1], []⟩ ∧
    Content.ofTokens (Token.directiveLines us ++ [eof]) =
      .ok ⟨[], [⟨.style .color .si, .hexColor "HFF0000", "1", 2⟩]⟩ := by
  have hts : Token.ofSource "SI x > 0\n#CONFIG COLOR_SI HFF0000 1\nMOSTRAR x\nFINSI" =
      .ok (Token.scan "SI x > 0\n#CONFIG COLOR_SI HFF0000 1\nMOSTRAR x\nFINSI").1 := by
    decide +kernel
  have hc : Content.ofTokens
      (Token.scan "SI x > 0\n#CONFIG COLOR_SI HFF0000 1\nMOSTRAR x\nFINSI").1 =
        .ok ⟨[.branch (.binary (.var "x") (.compare .greater) (.literal (.integer 0)))
          [.display (.var "x") 3] none 1], [⟨.style .color .si, .hexColor "HFF0000", "1", 2⟩]⟩ := by
    cbv
  obtain ⟨us, eof, hus, heof, hhoisted⟩ := Content.ofTokens_hoisted hts
  obtain ⟨hothers, hdirectives⟩ := (hhoisted _ _).1.mp hc
  exact ⟨us, eof, hus ▸ hts, heof, hothers, hdirectives⟩

end Pseudocode
