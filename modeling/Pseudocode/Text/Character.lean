import Pseudocode.Text.Alphabetic
import Pseudocode.Text.Numeric

/-! # Character classes

Letters and numerals are those of Unicode, digits of numbers those of ASCII. A word starts with a
letter and goes on with word characters.
-/

namespace Pseudocode.Text

def inRanges (ranges : Array (Nat × Nat)) (c : Char) : Bool :=
  ranges.any fun r => r.1 ≤ c.toNat && c.toNat ≤ r.2

/-- The Unicode property Alphabetic. -/
def isLetter (c : Char) : Bool :=
  if c.toNat < 128 then c.isAlpha else inRanges alphabeticRanges c

/-- A character of one of the categories Nd, Nl and No. -/
def isNumeral (c : Char) : Bool :=
  if c.toNat < 128 then c.isDigit else inRanges numericRanges c

def isWordChar (c : Char) : Bool :=
  isLetter c || isNumeral c || c == '_'

/-- A letter followed by word characters. -/
def isWord : List Char → Bool
  | [] => false
  | c :: cs => isLetter c && cs.all isWordChar

/-- The Unicode property White_Space. -/
def isWhiteSpace (c : Char) : Bool :=
  c == ' ' || ('\t' ≤ c && c ≤ '\r') || c == '\u0085' || c == '\u00a0' || c == '\u1680' ||
    ('\u2000' ≤ c && c ≤ '\u200a') || c == '\u2028' || c == '\u2029' || c == '\u202f' ||
    c == '\u205f' || c == '\u3000'

/-- A character that only separates tokens: a space, a tab or a carriage return. -/
def isBlank (c : Char) : Bool :=
  c == ' ' || c == '\t' || c == '\r'

def trimEnd (s : String) : String :=
  .ofList (s.toList.reverse.dropWhile isWhiteSpace).reverse

def trim (s : String) : String :=
  .ofList ((s.toList.dropWhile isWhiteSpace).reverse.dropWhile isWhiteSpace).reverse

/-- The pieces of `cs` between the separators `sep`: one more than there are separators. -/
def fields (sep : Char) : List Char → List (List Char)
  | [] => [[]]
  | c :: cs =>
    if c = sep then [] :: fields sep cs
    else match fields sep cs with
      | [] => [[c]]
      | f :: fs => (c :: f) :: fs

def padRight (width : Nat) (s : String) : String :=
  s ++ .ofList (.replicate (width - s.length) ' ')

def padLeft (width : Nat) (s : String) : String :=
  .ofList (.replicate (width - s.length) ' ') ++ s

end Pseudocode.Text
