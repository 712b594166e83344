import JackCompiler.Token.Scanner
import JackCompiler.Text.Lines
/-!
# The tokens of a source text

The lines of the text are scanned in order. From one line to the next go only the number of the
line and the block comment that was left open.
-/

namespace JackCompiler

namespace Token

/-- A source text of which some lines have been scanned. -/
structure Lexer where
  /-- How many lines have been scanned. -/
  row : Nat
  /-- Where the block comment began that is open, if one is. -/
  comment : Option Position
  /-- The tokens of those lines. -/
  tokens : Array Token

namespace Lexer

/-- Nothing has been scanned. -/
def start : Lexer :=
  { row := 0, comment := none, tokens := #[] }

/-- Scans the next line. -/
def scan (s : Lexer) (line : List Char) : Except LexicalError Lexer :=
  let ⟨row, comment, tokens⟩ := s
  let found := scanLine row comment line
  found.result.map fun comment => { row := row + 1, comment, tokens := tokens ++ found.tokens }

/-- The tokens, once all lines have been scanned. -/
def finish (s : Lexer) : Except LexicalError (List Token) :=
  match s.comment with
  | none => .ok s.tokens.toList
  | some pos => .error (.unterminatedComment pos)

end Lexer

/-- The tokens of a source text. -/
def ofSource (source : String) : Except LexicalError (List Token) := do
  let s ← (Text.lines source.toList).foldlM Lexer.scan Lexer.start
  s.finish

end Token

end JackCompiler
