import Pseudocode.Proofs.Token.Lexemes
import Pseudocode.Proofs.Token.Tiling

/-! # Lines are read one by one

No token and no comment goes on over a line break, and none is told apart by what stands after one. So the
tokens of two texts with a line break between them are those of the first text, the line break, and those
of the second text, further down.
-/

namespace Pseudocode

open String (utf8Len)

/-! ## Places further down -/

def Span.down (lines bytes : Nat) (s : Span) : Span :=
  ⟨s.line + lines, s.column, s.start + bytes, s.stop + bytes⟩

def Token.down (lines bytes : Nat) (t : Token) : Token :=
  { t with span := t.span.down lines bytes }

def LexError.down (lines : Nat) : LexError → LexError
  | .unexpectedChar l c found => .unexpectedChar (l + lines) c found
  | .unterminatedText l c => .unterminatedText (l + lines) c
  | .invalidNumber l c lexeme => .invalidNumber (l + lines) c lexeme

namespace Lexer

def Position.down (lines bytes : Nat) (p : Position) : Position :=
  ⟨p.line + lines, p.column, p.offset + bytes⟩

variable {lines bytes : Nat} {p : Position} {c : Char} {cs ds : List Char}

theorem next_down : (p.down lines bytes).next c = (p.next c).down lines bytes := by
  unfold Position.next
  split <;> simp [Position.down, Nat.add_right_comm]

theorem after_down : (p.down lines bytes).after cs = (p.after cs).down lines bytes := by
  induction cs generalizing p with
  | nil => rfl
  | cons c cs ih =>
    calc (p.down lines bytes).after (c :: cs)
        = ((p.next c).down lines bytes).after cs := by rw [← next_down]; rfl
      _ = (p.after (c :: cs)).down lines bytes := ih

theorem tokenAt_down (k : TokenKind) :
    tokenAt (p.down lines bytes) k cs = (tokenAt p k cs).down lines bytes := by
  rw [tokenAt, after_down]
  rfl

theorem toError_down (fault : Fault) :
    fault.toError (p.down lines bytes) c cs = (fault.toError p c cs).down lines := by
  cases fault <;> rfl

theorem scan_down (p : Position) (cs : List Char) :
    scan (p.down lines bytes) cs =
      ((scan p cs).1.map (Token.down lines bytes), (scan p cs).2.map (LexError.down lines)) := by
  fun_induction scan p cs with
  | case1 p => simp [scan, tokenAt_down]
  | case2 p c cs hb ih => rw [scan, if_pos hb, next_down, ih]
  | case3 p c cs hb hc n ih =>
    rw [scan, if_neg hb, if_pos hc, next_down, ← ih, ← after_down]
  | case4 p c cs hb hc fault hf =>
    rw [scan, if_neg hb, if_neg hc, hf]
    simp [toError_down]
  | case5 p c cs hb hc k n hf ts e hts ih =>
    rw [hts] at ih
    rw [scan, if_neg hb, if_neg hc, hf]
    simp only [after_down, tokenAt_down, ih, List.map_cons]

/-! ## No reading over a line break -/

theorem countWhile_le (q : Char → Bool) (cs : List Char) : countWhile q cs ≤ cs.length :=
  (List.takeWhile_prefix q).length_le

theorem countWhile_append_newline {q : Char → Bool} (h : q '\n' = false) :
    countWhile q (cs ++ '\n' :: ds) = countWhile q cs := by
  rw [countWhile, List.takeWhile_append]
  split
  case isTrue hall =>
    rw [List.takeWhile_cons_of_neg (by simp [h]), List.append_nil, countWhile, hall]
  case isFalse => rfl

theorem drop_append_newline {n : Nat} (h : n ≤ cs.length) :
    (cs ++ '\n' :: ds).drop n = cs.drop n ++ '\n' :: ds :=
  List.drop_append_of_le_length h

theorem take_append_newline {n : Nat} (h : n ≤ cs.length) :
    (cs ++ '\n' :: ds).take n = cs.take n :=
  List.take_append_of_le_length h

theorem fractionLength_append_newline :
    fractionLength (cs ++ '\n' :: ds) = fractionLength cs := by
  cases cs with
  | nil => rfl
  | cons c cs =>
    by_cases hc : c = '.'
    · subst hc
      have hcount := @countWhile_append_newline cs ds Char.isDigit rfl
      simp only [List.cons_append, fractionLength, hcount]
    · simp [fractionLength, hc]

theorem fractionLength_le (cs : List Char) : fractionLength cs ≤ cs.length := by
  unfold fractionLength
  split
  case h_1 cs =>
    have hle := countWhile_le Char.isDigit cs
    split <;> simp [hle]
  case h_2 => exact Nat.zero_le _

def numberLength (cs : List Char) : Nat :=
  countWhile Char.isDigit cs + fractionLength (cs.drop (countWhile Char.isDigit cs))

theorem numberLength_le (cs : List Char) : numberLength cs ≤ cs.length := by
  have hwhole := countWhile_le Char.isDigit cs
  have hfraction := fractionLength_le (cs.drop (countWhile Char.isDigit cs))
  rw [List.length_drop] at hfraction
  unfold numberLength
  omega

theorem number_append_newline : number c (cs ++ '\n' :: ds) = number c cs := by
  have hwhole := countWhile_le Char.isDigit cs
  have hlength : countWhile Char.isDigit cs + fractionLength (cs.drop (countWhile Char.isDigit cs)) ≤
    cs.length := numberLength_le cs
  simp only [number, @countWhile_append_newline cs ds Char.isDigit rfl, drop_append_newline hwhole,
    fractionLength_append_newline, take_append_newline hlength]

theorem textBody_append_newline : textBody (cs ++ '\n' :: ds) = textBody cs := by
  fun_induction textBody cs with
  | case1 cs ih => rw [List.cons_append, List.cons_append, textBody, ih]
  | case2 cs h =>
    cases cs with
    | nil => rfl
    | cons c cs =>
      have hc : c ≠ '"' := by
        rintro rfl
        exact h cs rfl
      simp [textBody, hc]
  | case3 => rfl
  | case4 => rfl
  | case5 c cs h h' h'' ih =>
    rw [List.cons_append, textBody, ih]
    · intro ds' hc
      exact absurd hc h'
    · exact h'
    · exact h''

theorem word_append_newline : word c (cs ++ '\n' :: ds) = word c cs := by
  rw [word, @countWhile_append_newline cs ds Text.isWordChar (by decide),
    take_append_newline (countWhile_le _ cs), word]

theorem symbol?_append_newline : symbol? c (cs ++ '\n' :: ds) = symbol? c cs := by
  fun_cases symbol? c cs with
  | case5 tail h h' =>
    cases cs with
    | nil => rfl
    | cons d cs => rw [List.cons_append, symbol?] <;> simp_all
  | case7 tail h =>
    cases cs with
    | nil => rfl
    | cons d cs => rw [List.cons_append, symbol?]; simp_all
  | case16 => unfold symbol?; split <;> simp_all
  | _ => rfl

/-- A token is told apart by what stands before the line break. -/
theorem front_append_newline : front c (cs ++ '\n' :: ds) = front c cs := by
  simp only [front, number_append_newline, text, textBody_append_newline, word_append_newline,
    symbol?_append_newline]

theorem beginsDirective_append_newline :
    BeginsDirective (cs ++ '\n' :: ds) ↔ BeginsDirective cs := by
  constructor
  · rintro ⟨rest, heq, hrest⟩
    rcases List.append_eq_append_iff.mp heq with ⟨as, hword, hend⟩ | ⟨as, rfl, rfl⟩
    · cases as with
      | nil => exact ⟨[], by simpa using hword.symm, nofun⟩
      | cons a as =>
        obtain ⟨rfl, -⟩ := List.cons.inj hend
        have hmem : '\n' ∈ "#CONFIG".toList := by simp [hword]
        exact absurd hmem (by decide)
    · refine ⟨as, rfl, fun c hc => hrest c ?_⟩
      rw [List.head?_append, Option.mem_def.mp hc]
      rfl
  · rintro ⟨rest, rfl, hrest⟩
    refine ⟨rest ++ '\n' :: ds, List.append_assoc .., fun c hc => ?_⟩
    cases rest with
    | nil =>
      obtain rfl : '\n' = c := by simpa using hc
      decide
    | cons d rest => exact hrest c hc

theorem isDirective_append_newline : isDirective (cs ++ '\n' :: ds) = isDirective cs := by
  rw [Bool.eq_iff_iff, isDirective_iff, isDirective_iff, ← List.cons_append,
    beginsDirective_append_newline]

theorem length_le_of_textBody {body : List Char} {n : Nat} (h : textBody cs = some (body, n)) :
    n ≤ cs.length := by
  fun_induction textBody cs generalizing body n with
  | case1 cs ih =>
    obtain ⟨⟨body', n'⟩, hb, hn⟩ := Option.map_eq_some_iff.mp h
    cases hn
    exact Nat.add_le_add_right (ih hb) 2
  | case2 =>
    cases h
    exact Nat.succ_pos _
  | case3 => cases h
  | case4 => cases h
  | case5 c cs _ _ _ ih =>
    obtain ⟨⟨body', n'⟩, hb, hn⟩ := Option.map_eq_some_iff.mp h
    cases hn
    exact Nat.succ_le_succ (ih hb)

theorem length_le_of_symbol? {k : TokenKind} {n : Nat} (h : symbol? c cs = some (k, n)) :
    n ≤ cs.length := by
  unfold symbol? at h
  split at h <;> cases h <;> simp

theorem length_le_of_isDirective (h : isDirective cs) : directiveTail.length ≤ cs.length := by
  rw [isDirective, Bool.and_eq_true, List.isPrefixOf_iff_prefix] at h
  exact h.1.length_le

theorem length_eq_of_number {k : TokenKind} {n : Nat} (h : number c cs = .ok (k, n)) :
    n = numberLength cs := by
  simp only [number] at h
  split at h <;> split at h <;> cases h <;> rfl

theorem length_le_of_front {k : TokenKind} {n : Nat} (hdirective : c = '#' → isDirective cs)
    (h : front c cs = .ok (k, n)) : n ≤ cs.length := by
  rcases front_cases h with ⟨-, h⟩ | ⟨-, h⟩ | ⟨-, h⟩ | ⟨hc, h⟩ | h
  · exact (length_eq_of_number h).trans_le (numberLength_le cs)
  · obtain ⟨body, -, hbody⟩ := text_cases h
    exact length_le_of_textBody hbody
  · exact (word_cases h).1.trans_le (countWhile_le _ cs)
  · cases h
    exact length_le_of_isDirective (hdirective hc)
  · exact length_le_of_symbol? h

theorem number_eq_error {fault : Fault} (h : number c cs = .error fault) :
    fault = .invalidNumber (numberLength cs + 1) := by
  simp only [number] at h
  split at h <;> split at h <;> cases h <;> rfl

theorem number_of_front_eq_error {n : Nat} (h : front c cs = .error (.invalidNumber n)) :
    number c cs = .error (.invalidNumber n) := by
  unfold front at h
  split at h
  case isTrue => exact h
  case isFalse =>
    split at h
    case isTrue =>
      unfold text at h
      split at h <;> cases h
    case isFalse =>
      split at h
      case isTrue => cases h
      case isFalse =>
        split at h
        case isTrue => cases h
        case isFalse => split at h <;> cases h

theorem toError_append_newline {fault : Fault} (h : front c cs = .error fault) :
    fault.toError p c (cs ++ '\n' :: ds) = fault.toError p c cs := by
  cases fault with
  | unexpectedChar => rfl
  | unterminatedText => rfl
  | invalidNumber n =>
    obtain rfl : n = numberLength cs + 1 := by
      simpa using number_eq_error (number_of_front_eq_error h)
    simp only [Fault.toError, List.take_succ_cons, take_append_newline (numberLength_le cs)]

/-! ## Two texts with a line break between them -/

/-- The first result is that of a text up to `p`, the second one that of the same text with a line break and a
further text, the result of which is `further`, after it. -/
inductive Continues (p : Position) (further : List Token × Option LexError) :
    List Token × Option LexError → List Token × Option LexError → Prop where
  | fault {ts : List Token} {e : LexError} : Continues p further (ts, some e) (ts, some e)
  | newline (ts : List Token) : Continues p further (ts ++ [tokenAt p .endOfInput []], none)
      (ts ++ tokenAt p .newline ['\n'] :: further.1, further.2)

theorem Continues.cons {further : List Token × Option LexError} {ts us : List Token}
    {e e' : Option LexError} (h : Continues p further (ts, e) (us, e')) (t : Token) :
    Continues p further (t :: ts, e) (t :: us, e') := by
  cases h with
  | fault => exact .fault
  | newline ts => exact .newline (t :: ts)

theorem after_append (p : Position) (cs ds : List Char) :
    (p.after cs).after ds = p.after (cs ++ ds) :=
  List.foldl_append.symm

theorem scan_newline (p : Position) (ds : List Char) : scan p ('\n' :: ds) =
    (tokenAt p .newline ['\n'] :: (scan (p.next '\n') ds).1, (scan (p.next '\n') ds).2) := by
  rw [scan, if_neg (by decide), if_neg (by simp)]
  rfl

theorem continues_append_newline (p : Position) (cs ds : List Char) :
    Continues (p.after cs) (scan ((p.after cs).next '\n') ds) (scan p cs)
      (scan p (cs ++ '\n' :: ds)) := by
  fun_induction scan p cs with
  | case1 p =>
    rw [List.nil_append, scan_newline]
    exact .newline []
  | case2 p c cs hb ih =>
    rw [List.cons_append, scan, if_pos hb]
    exact ih
  | case3 p c cs hb hc n ih =>
    have hn : n ≤ cs.length := countWhile_le _ cs
    have hcount : countWhile (· ≠ '\n') (cs ++ '\n' :: ds) = n :=
      countWhile_append_newline (by decide)
    have hafter : ((p.next c).after (cs.take n)).after (cs.drop n) = p.after (c :: cs) := by
      rw [after_append, List.take_append_drop]
      rfl
    rw [List.cons_append, scan, if_neg hb, isDirective_append_newline, if_pos hc, hcount]
    simp only [take_append_newline hn, drop_append_newline hn]
    rwa [hafter] at ih
  | case4 p c cs hb hc fault hf =>
    rw [List.cons_append, scan, if_neg hb, isDirective_append_newline, if_neg hc, front_append_newline]
    simp only [hf, toError_append_newline hf]
    exact .fault
  | case5 p c cs hb hc k n hf ts e hts ih =>
    have hn : n ≤ cs.length := length_le_of_front (by simpa using hc) hf
    have hafter : (p.after (c :: cs.take n)).after (cs.drop n) = p.after (c :: cs) := by
      rw [after_append, List.cons_append, List.take_append_drop]
    rw [List.cons_append, scan, if_neg hb, isDirective_append_newline, if_neg hc, front_append_newline]
    simp only [hf, take_append_newline hn, drop_append_newline hn]
    rw [hts, hafter] at ih
    exact ih.cons _

theorem next_after_first (cs : List Char) :
    ((placeAfter []).after cs).next '\n' =
      (placeAfter []).down (1 + cs.count '\n') (utf8Len cs + 1) := by
  rw [after_placeAfter, next_placeAfter]
  have hsize : '\n'.utf8Size = 1 := rfl
  simp [placeAfter, lineAfter, columnAfter, Position.down, Nat.add_comm, hsize]

end Lexer

theorem Token.ofSource_eq_ok {source : String} {ts : List Token} (h : Token.ofSource source = .ok ts) :
    Token.scan source = (ts, none) := by
  unfold Token.ofSource at h
  split at h
  case h_1 ts' hs =>
    cases h
    exact hs
  case h_2 => cases h

theorem Token.ofSource_eq_error {source : String} {e : LexError}
    (h : Token.ofSource source = .error e) : ∃ ts, Token.scan source = (ts, some e) := by
  unfold Token.ofSource at h
  split at h
  case h_1 => cases h
  case h_2 ts e' hs =>
    cases h
    exact ⟨ts, hs⟩

open Lexer in
/-- If the first of two texts with a line break between them can be read, then so is what both make, up to
where the second one cannot be read. The line break takes the place of the end of the first text, and the
second text is read as it is, further down. If the first text cannot be read, the second one changes
nothing. -/
theorem Token.scan_append_newline (a b : String) :
    (∀ ts, Token.ofSource a = .ok ts → ∃ front eof, ts = front ++ [eof] ∧ eof.kind = .endOfInput ∧
      Token.scan (a ++ "\n" ++ b) =
        (front ++ ⟨.newline, "\n", { eof.span with stop := eof.span.start + 1 }⟩ ::
            (Token.scan b).1.map (Token.down (1 + a.toList.count '\n') (a.utf8ByteSize + 1)),
          (Token.scan b).2.map (LexError.down (1 + a.toList.count '\n')))) ∧
    ∀ e, Token.ofSource a = .error e →
      Token.scan (a ++ "\n" ++ b) = ((Token.scan a).1, some e) := by
  have hboth : Token.scan (a ++ "\n" ++ b) =
      Lexer.scan (placeAfter []) (a.toList ++ '\n' :: b.toList) := by
    rw [Token.scan, String.toList_append, String.toList_append, List.append_assoc]
    rfl
  have hsecond := @scan_down (1 + a.toList.count '\n') (a.utf8ByteSize + 1) (placeAfter []) b.toList
  have hcontinues : Continues _ _ (Token.scan a) _ :=
    continues_append_newline (placeAfter []) a.toList b.toList
  rw [next_after_first, String.utf8Len_toList, hsecond, ← hboth] at hcontinues
  generalize Token.scan (a ++ "\n" ++ b) = both at hcontinues
  constructor
  · intro ts hts
    rw [Token.ofSource_eq_ok hts] at hcontinues
    cases hcontinues with
    | newline front => exact ⟨front, _, rfl, rfl, rfl⟩
  · intro e he
    obtain ⟨ts, hts⟩ := Token.ofSource_eq_error he
    rw [hts] at hcontinues
    cases hcontinues with
    | fault => rw [hts]

end Pseudocode
