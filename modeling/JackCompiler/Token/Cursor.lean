import JackCompiler.Token.Basic
/-!
# Reading along a list of tokens

Looking at the next tokens of a list, and taking one off under a condition. What cannot be taken
stays in place, so a failed step leaves the list as it was.
-/

namespace JackCompiler

/-- Why a list of tokens is no class. -/
inductive SyntaxError
  /-- The token cannot stand here. -/
  | unexpectedToken (token : Token)
  /-- Something must still follow. -/
  | unexpectedEnd
  deriving DecidableEq, Repr

namespace SyntaxError

/-- Where the error is, unless it is at the end of the text. -/
def pos? : SyntaxError → Option Position
  | unexpectedToken token => some token.pos
  | unexpectedEnd => none

/-- The wording of the error. -/
def message : SyntaxError → String
  | unexpectedToken token =>
    "Unexpected token: " ++ token.kind.describe ++ " at " ++ token.pos.text
  | unexpectedEnd => "Unexpected end of file"

end SyntaxError

namespace Token

/-- A condition on a token. -/
inductive Pattern
  | anyKeyword
  | anySymbol
  | anyInteger
  | anyString
  | anyName
  | exactly (k : Kind)
  deriving DecidableEq, Repr

/-- Does the token meet the condition? -/
def Pattern.accepts : Pattern → Kind → Bool
  | anyKeyword, .keyword _ => true
  | anySymbol, .symbol _ => true
  | anyInteger, .integer _ => true
  | anyString, .string _ => true
  | anyName, .name _ => true
  | exactly k, k' => k == k'
  | _, _ => false

/-- Is there a next token that meets the condition? -/
def nextIs (p : Pattern) (ts : List Token) : Bool :=
  ts.head?.any fun t => p.accepts t.kind

/-- Is there a token after the next that meets the condition? -/
def secondIs (p : Pattern) (ts : List Token) : Bool :=
  nextIs p ts.tail

/-- Takes the next token off the list if the reading of it gives a value. -/
def expectMap {α : Type} (read : Kind → Option α) :
    List Token → Except SyntaxError (α × List Token)
  | [] => .error .unexpectedEnd
  | t :: rest =>
    match read t.kind with
    | some a => .ok (a, rest)
    | none => .error (.unexpectedToken t)

/-- Takes the next token off the list if it meets the condition. -/
def expect (p : Pattern) : List Token → Except SyntaxError (Token × List Token)
  | [] => .error .unexpectedEnd
  | t :: rest => if p.accepts t.kind then .ok (t, rest) else .error (.unexpectedToken t)

/-- Is the list at its end? -/
def expectEnd : List Token → Except SyntaxError Unit
  | [] => .ok ()
  | t :: _ => .error (.unexpectedToken t)

end Token

end JackCompiler
