/-! # Quoted text

A text literal stands between quotes, and a quote inside it is written twice.
-/

namespace Pseudocode.Text

def doubleQuotes : List Char → List Char
  | [] => []
  | c :: cs => if c = '"' then '"' :: '"' :: doubleQuotes cs else c :: doubleQuotes cs

def quote (s : String) : String :=
  .ofList ('"' :: doubleQuotes s.toList ++ ['"'])

end Pseudocode.Text
