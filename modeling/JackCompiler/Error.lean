import JackCompiler.Token.Scanner
import JackCompiler.Token.Cursor
import JackCompiler.Emit.Expression
/-!
# Errors

Everything that can go wrong when a source is compiled: in its characters, in its tokens, in its
names, or with its file.
-/

namespace JackCompiler

/-- Why a file could not be used. -/
inductive FileFault
  | notFound
  | permissionDenied
  | alreadyExists
  | notDirectory
  | isDirectory
  /-- The path is too long, or a name in it. -/
  | nameTooLong
  /-- The content is no UTF-8 text. -/
  | invalidText
  /-- Another failure, in the words of the system. -/
  | other (text : String)
  deriving DecidableEq, Repr

/-- The wording of the fault. -/
def FileFault.message : FileFault → String
  | notFound => "No such file or directory (os error 2)"
  | permissionDenied => "Permission denied (os error 13)"
  | alreadyExists => "File exists (os error 17)"
  | notDirectory => "Not a directory (os error 20)"
  | isDirectory => "Is a directory (os error 21)"
  | nameTooLong => "File name too long (os error 36)"
  | invalidText => "stream did not contain valid UTF-8"
  | other text => text

/-- What was to be done with a file. -/
inductive FileAction
  | openFile
  | readDirectory
  | createDirectory
  | writeFile
  deriving DecidableEq, Repr

/-- What is said when the action fails. -/
def FileAction.failure : FileAction → String
  | openFile => "Failed to open file"
  | readDirectory => "Failed to read directory"
  | createDirectory => "Failed to create directory"
  | writeFile => "Failed to write file"

/-- Why a source was not compiled. -/
inductive CompileError
  | lexical (e : LexicalError)
  | syntactic (e : SyntaxError)
  | undeclared (e : UndeclaredVariable)
  | file (action : FileAction) (path : String) (fault : FileFault)
  deriving DecidableEq, Repr

namespace CompileError

/-- The wording of the error. -/
def message : CompileError → String
  | lexical e => e.message
  | syntactic e => e.message
  | undeclared e => e.message
  | file action path fault => action.failure ++ ": " ++ path ++ ": " ++ fault.message

/-- Where in the source the error is, if it is at one place of it. -/
def pos? : CompileError → Option Position
  | lexical e => some e.pos
  | syntactic e => e.pos?
  | undeclared _ => none
  | file .. => none

end CompileError

end JackCompiler
