import JackCompiler.Position
import JackCompiler.Text.Blank
/-!
# Tokens

The words of the Jack language: keywords, one-character symbols, integer and string constants, and
names. A token is such a word at a position of the source text.
-/

namespace JackCompiler

/-- The reserved words. -/
inductive Keyword
  | «class»
  | «constructor»
  | function
  | method
  | field
  | static
  | var
  | int
  | char
  | boolean
  | void
  | true
  | false
  | null
  | this
  | «let»
  | «do»
  | «if»
  | «else»
  | «while»
  | «return»
  deriving DecidableEq, Repr

namespace Keyword

/-- Every keyword. -/
def all : List Keyword :=
  [.class, .constructor, .function, .method, .field, .static, .var, .int, .char, .boolean, .void,
    .true, .false, .null, .this, .let, .do, .if, .else, .while, .return]

/-- The keyword as it is written. -/
def word : Keyword → String
  | .class => "class"
  | .constructor => "constructor"
  | .function => "function"
  | .method => "method"
  | .field => "field"
  | .static => "static"
  | .var => "var"
  | .int => "int"
  | .char => "char"
  | .boolean => "boolean"
  | .void => "void"
  | .true => "true"
  | .false => "false"
  | .null => "null"
  | .this => "this"
  | .let => "let"
  | .do => "do"
  | .if => "if"
  | .else => "else"
  | .while => "while"
  | .return => "return"

/-- The keyword with this spelling, in exactly this case. -/
def ofWord? (s : String) : Option Keyword :=
  all.find? fun k => k.word == s

@[simp]
theorem ofWord?_word (k : Keyword) : ofWord? k.word = some k := by
  cases k <;> decide

end Keyword

namespace Token

/-- What a token says, apart from where it stands. -/
inductive Kind
  | keyword (k : Keyword)
  | symbol (c : Char)
  | integer (n : UInt16)
  | string (s : String)
  | name (s : String)
  deriving DecidableEq, Repr

/-- The token in the words of an error message. -/
def Kind.describe : Kind → String
  | keyword k => "keyword `" ++ k.word ++ "`"
  | symbol c => "symbol `" ++ c.toString ++ "`"
  | integer n => "integer `" ++ n.toNat.repr ++ "`"
  | string s => "string \"" ++ s ++ "\""
  | name s => "identifier `" ++ s ++ "`"

/-- The characters that are a token each. -/
def symbols : List Char :=
  ['{', '}', '(', ')', '[', ']', '.', ',', ';', '+', '-', '*', '/', '&', '|', '<', '>', '=', '~']

/-- Is the character a token of its own? -/
def isSymbol (c : Char) : Bool :=
  symbols.contains c

/-- Can the character stand in a keyword, a name or a number? Everything can that is neither blank
nor the quote of a string constant nor a symbol. -/
def isWordChar (c : Char) : Bool :=
  !(Text.isBlank c || c == '"' || isSymbol c)

/-- The largest integer constant, length of a string constant, and code of a character in one. -/
def limit : Nat := 32767

end Token

/-- A token of a source text. -/
structure Token where
  kind : Token.Kind
  pos : Position
  deriving DecidableEq, Repr

end JackCompiler
