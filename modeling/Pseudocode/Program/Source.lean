import Pseudocode.Instruction.Parser
import Pseudocode.Program
import Pseudocode.Token.Lexer

/-! # Programs from source text -/

namespace Pseudocode

/-- Why a source text is not a program, by the stage that refused it. -/
inductive SourceError where
  | lexical (e : LexError)
  | syntactic (e : SyntaxError)
  | invalid (e : ValidationError)
  deriving DecidableEq

def SourceError.message : SourceError → String
  | .lexical e => e.message
  | .syntactic e => e.message
  | .invalid e => e.message

def Program.ofSource (source : String) : Except SourceError Program := do
  let ts ← (Token.ofSource source).mapError .lexical
  let content ← (Content.ofTokens ts).mapError .syntactic
  (Program.ofParts content.instructions content.directives).mapError .invalid

end Pseudocode
