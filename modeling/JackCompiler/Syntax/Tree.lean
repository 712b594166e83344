/-!
# Syntax trees

A class of the Jack language as a tree. The tree keeps what the text says and nothing of how it is
laid out: parentheses are kept, because they group, and an expression is a flat sequence of terms
and operators, because the language has no precedence.
-/

namespace JackCompiler

/-- The type of a variable, a parameter or a result. -/
inductive VarType
  | int
  | char
  | boolean
  | object (className : String)
  deriving DecidableEq, Repr

/-- The name of the type. -/
def VarType.name : VarType → String
  | int => "int"
  | char => "char"
  | boolean => "boolean"
  | object className => className

/-- The binary operators. -/
inductive BinaryOp
  | add
  | sub
  | mul
  | div
  | and
  | or
  | lt
  | gt
  | eq
  deriving DecidableEq, Repr

namespace BinaryOp

/-- Every binary operator. -/
def all : List BinaryOp :=
  [add, sub, mul, div, and, or, lt, gt, eq]

/-- The symbol of the operator. -/
def symbol : BinaryOp → Char
  | add => '+'
  | sub => '-'
  | mul => '*'
  | div => '/'
  | and => '&'
  | or => '|'
  | lt => '<'
  | gt => '>'
  | eq => '='

/-- The operator with this symbol. -/
def ofSymbol? (c : Char) : Option BinaryOp :=
  all.find? fun op => op.symbol == c

@[simp]
theorem ofSymbol?_symbol (op : BinaryOp) : ofSymbol? op.symbol = some op := by
  cases op <;> decide

end BinaryOp

/-- The unary operators: `-` and `~`. -/
inductive UnaryOp
  | neg
  | not
  deriving DecidableEq, Repr

/-- The symbol of the operator. -/
def UnaryOp.symbol : UnaryOp → Char
  | neg => '-'
  | not => '~'

/-- The constants that are written as keywords. -/
inductive NamedConstant
  | true
  | false
  | null
  | this
  deriving DecidableEq, Repr

mutual

/-- An expression: a term, and then operators with a term each, worked off from left to right. -/
inductive Expr
  | mk (head : Term) (tail : List (BinaryOp × Term))

/-- A term. -/
inductive Term
  | integer (n : UInt16)
  | string (s : String)
  | constant (c : NamedConstant)
  | paren (e : Expr)
  | unary (op : UnaryOp) (t : Term)
  | var (name : String)
  | index (name : String) (e : Expr)
  | call (c : Call)

/-- A call of a subroutine, perhaps of an object or class that stands before the dot. -/
inductive Call
  | mk (receiver : Option String) (name : String) (args : List Expr)

end

instance : Inhabited Term := ⟨.constant .null⟩

instance : Inhabited Expr := ⟨.mk default []⟩

instance : Inhabited Call := ⟨.mk none default []⟩

/-- A statement. -/
inductive Statement
  /-- Puts a value into a variable, or into an entry of the array that the variable holds. -/
  | assign (name : String) (index : Option Expr) (value : Expr)
  /-- Runs one of two blocks; the second may be missing. -/
  | branch (condition : Expr) (yes : List Statement) (no : Option (List Statement))
  /-- Runs a block as long as a condition holds. -/
  | loop (condition : Expr) (body : List Statement)
  /-- Calls a subroutine and drops its result. -/
  | perform (call : Call)
  /-- Leaves the subroutine. -/
  | leave (value : Option Expr)
  deriving Inhabited

/-- A declaration of variables of one type. -/
structure VarDec where
  type : VarType
  names : List String
  deriving DecidableEq, Repr

/-- Where the variables of a class live: once for the class, or in each of its objects. -/
inductive ClassVarKind
  | static
  | field
  deriving DecidableEq, Repr

/-- A parameter of a subroutine. -/
structure Parameter where
  type : VarType
  name : String
  deriving DecidableEq, Repr

/-- The kinds of subroutine. -/
inductive SubroutineKind
  | «constructor»
  | function
  | method
  deriving DecidableEq, Repr

/-- A subroutine up to its parameters. Without a result type it is `void`. -/
structure Signature where
  kind : SubroutineKind
  result : Option VarType
  name : String
  parameters : List Parameter
  deriving DecidableEq, Repr

/-- A subroutine. -/
structure Subroutine extends Signature where
  locals : List VarDec
  body : List Statement

/-- A class. -/
structure Class where
  name : String
  vars : List (ClassVarKind × VarDec)
  subroutines : List Subroutine

end JackCompiler
