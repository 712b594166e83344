import JackCompiler.Instruction.Basic
/-!
# Symbol tables

What the variable names of a class stand for. Static variables and fields are known in the whole
class; arguments and local variables only in one subroutine, where they hide the former. The
variables of a kind are numbered in the order of their definition, and of two definitions of a name
in one scope the later counts.
-/

namespace JackCompiler

/-- The kinds of variable. -/
inductive SymbolKind
  | static
  | field
  | argument
  | «local»
  deriving DecidableEq, Repr

/-- The segment in which the variables of a kind live. -/
def SymbolKind.segment : SymbolKind → Segment
  | static => .static
  | field => .this
  | argument => .argument
  | «local» => .local

/-- A variable: its name, the name of its type, and which variable of its kind it is. -/
structure Symbol where
  name : String
  type : String
  kind : SymbolKind
  index : Nat
  deriving DecidableEq, Repr

/-- The variables known at some point of a class, latest first, and how many of each kind were
defined. -/
structure SymbolTable where
  classScope : List Symbol := []
  subroutineScope : List Symbol := []
  statics : Nat := 0
  fields : Nat := 0
  arguments : Nat := 0
  locals : Nat := 0

namespace SymbolTable

/-- How many variables of a kind were defined. -/
def count (t : SymbolTable) : SymbolKind → Nat
  | .static => t.statics
  | .field => t.fields
  | .argument => t.arguments
  | .local => t.locals

/-- Forgets the arguments and local variables, as at the beginning of a subroutine. -/
def startSubroutine (t : SymbolTable) : SymbolTable :=
  { t with subroutineScope := [], arguments := 0, locals := 0 }

/-- Defines one more variable of a kind. -/
def define (t : SymbolTable) (name type : String) (kind : SymbolKind) : SymbolTable :=
  let symbol : Symbol := { name, type, kind, index := t.count kind }
  match kind with
  | .static => { t with classScope := symbol :: t.classScope, statics := t.statics + 1 }
  | .field => { t with classScope := symbol :: t.classScope, fields := t.fields + 1 }
  | .argument =>
    { t with subroutineScope := symbol :: t.subroutineScope, arguments := t.arguments + 1 }
  | .local => { t with subroutineScope := symbol :: t.subroutineScope, locals := t.locals + 1 }

/-- The variable that a name stands for. -/
def resolve (t : SymbolTable) (name : String) : Option Symbol :=
  (t.subroutineScope.find? fun s => s.name == name).or
    (t.classScope.find? fun s => s.name == name)

/-- A definition makes its kind one larger and leaves the others. -/
theorem count_define (t : SymbolTable) (name type : String) (kind k : SymbolKind) :
    (t.define name type kind).count k = t.count k + if k = kind then 1 else 0 := by
  cases kind <;> cases k <;> rfl

end SymbolTable

end JackCompiler
