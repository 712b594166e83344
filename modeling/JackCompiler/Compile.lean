import JackCompiler.Token.Lexer
import JackCompiler.Syntax.Reader.Class
import JackCompiler.Emit.Class
import JackCompiler.Error
/-!
# Compiling a source

From the text of a class to its code. Labels are counted on from source to source, also past one
that fails.
-/

namespace JackCompiler

/-- The class that a source text spells. -/
def Class.ofSource (source : String) : Except CompileError Class := do
  let tokens ← (Token.ofSource source).mapError .lexical
  (Class.ofTokens tokens).mapError .syntactic

/-- The code of a source text. -/
def compile (source : String) : EStateM CompileError Labels Code := do
  let c ← ofExcept (Class.ofSource source)
  c.emit.adaptExcept .undeclared

/-- The sources compiled one after the other: what comes of each, and the label counter after the
last. -/
def compileEach : List String → Labels → List (Except CompileError Code) × Labels
  | [], labels => ([], labels)
  | source :: sources, labels =>
    let (result, labels) := match compile source labels with
      | .ok code labels => (Except.ok code, labels)
      | .error e labels => (Except.error e, labels)
    let (results, labels) := compileEach sources labels
    (result :: results, labels)

end JackCompiler
