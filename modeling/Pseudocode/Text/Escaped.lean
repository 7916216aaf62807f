import Pseudocode.Text.Character
import Pseudocode.Text.ExtendingMark
import Pseudocode.Text.Unprintable

/-! # Escaped text

A text on one line of a listing: between quotes, with an escape for every character that would not
show as itself.
-/

namespace Pseudocode.Text

def isPrintable (c : Char) : Bool :=
  if c.toNat < 128 then 0x20 ≤ c.toNat && c.toNat < 0x7f
  else !inRanges extendingMarkRanges c && !inRanges unprintableRanges c

def hex (n : Nat) : String :=
  .ofList (Nat.toDigits 16 n)

def hexPair (n : Nat) : String :=
  .ofList [Nat.digitChar (n / 16 % 16), Nat.digitChar (n % 16)]

def escapeChar (c : Char) : String :=
  match c with
  | '\x00' => "\\0"
  | '\t' => "\\t"
  | '\r' => "\\r"
  | '\n' => "\\n"
  | '\\' => "\\\\"
  | '"' => "\\\""
  | _ => if isPrintable c then c.toString else "\\u\x7b" ++ hex c.toNat ++ "\x7d"

def escape (s : String) : String :=
  "\"" ++ String.join (s.toList.map escapeChar) ++ "\""

end Pseudocode.Text
