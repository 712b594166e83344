import JackCompiler.Syntax.Tree
import JackCompiler.Token.Basic
/-!
# How syntax trees are written

The tokens that spell a class, without their positions. Nothing is added and nothing left out: the
parentheses of an expression are part of its tree, and so is an empty second block of a branch.
-/

namespace JackCompiler

open Token (Kind)

/-- The token that names a type. -/
def VarType.spelling : VarType → Kind
  | int => .keyword .int
  | char => .keyword .char
  | boolean => .keyword .boolean
  | object className => .name className

/-- The token of a constant. -/
def NamedConstant.spelling : NamedConstant → Kind
  | true => .keyword .true
  | false => .keyword .false
  | null => .keyword .null
  | this => .keyword .this

/-- Spellings with a comma between each two. -/
def commaSeparated : List (List Kind) → List Kind :=
  List.intercalate [.symbol ',']

namespace Spelling

mutual

/-- The tokens of an expression. -/
def expr : Expr → List Kind
  | .mk head tail => term head ++ operands tail

/-- The tokens of the operators of an expression, each before its term. -/
def operands : List (BinaryOp × Term) → List Kind
  | [] => []
  | (op, t) :: tail => .symbol op.symbol :: (term t ++ operands tail)

/-- The tokens of a term. -/
def term : Term → List Kind
  | .integer n => [.integer n]
  | .string s => [.string s]
  | .constant c => [c.spelling]
  | .paren e => .symbol '(' :: (expr e ++ [.symbol ')'])
  | .unary op t => .symbol op.symbol :: term t
  | .var name => [.name name]
  | .index name e => .name name :: .symbol '[' :: (expr e ++ [.symbol ']'])
  | .call c => call c

/-- The tokens of a call. -/
def call : Call → List Kind
  | .mk receiver name args =>
    let callee := match receiver with
      | some r => [.name r, .symbol '.', .name name]
      | none => [.name name]
    callee ++ .symbol '(' :: (commaSeparated (arguments args) ++ [.symbol ')'])

/-- The tokens of each argument of a call. -/
def arguments : List Expr → List (List Kind)
  | [] => []
  | e :: es => expr e :: arguments es

end

mutual

/-- The tokens of a statement. -/
def statement : Statement → List Kind
  | .assign name index value =>
    let entry := match index with
      | some e => .symbol '[' :: (expr e ++ [.symbol ']'])
      | none => []
    .keyword .let :: .name name :: (entry ++ .symbol '=' :: (expr value ++ [.symbol ';']))
  | .branch condition yes no =>
    let other := match no with
      | some block => .keyword .else :: .symbol '{' :: (statements block ++ [.symbol '}'])
      | none => []
    .keyword .if :: .symbol '(' :: (expr condition
      ++ .symbol ')' :: .symbol '{' :: (statements yes ++ .symbol '}' :: other))
  | .loop condition body =>
    .keyword .while :: .symbol '(' :: (expr condition
      ++ .symbol ')' :: .symbol '{' :: (statements body ++ [.symbol '}']))
  | .perform c => .keyword .do :: (call c ++ [.symbol ';'])
  | .leave value =>
    let result := match value with
      | some e => expr e
      | none => []
    .keyword .return :: (result ++ [.symbol ';'])

/-- The tokens of the statements of a block, without its braces. -/
def statements : List Statement → List Kind
  | [] => []
  | s :: rest => statement s ++ statements rest

end

/-- The tokens of a declaration of variables, after the keyword that begins it. -/
def varDec (d : VarDec) : List Kind :=
  d.type.spelling :: (commaSeparated (d.names.map fun name => [.name name]) ++ [.symbol ';'])

/-- The keyword that begins a declaration of variables of a class. -/
def classVarKind : ClassVarKind → Keyword
  | .static => .static
  | .field => .field

/-- The keyword that begins a subroutine. -/
def subroutineKind : SubroutineKind → Keyword
  | .constructor => .constructor
  | .function => .function
  | .method => .method

/-- The tokens of a subroutine up to its parameters. -/
def signature (s : Signature) : List Kind :=
  let result := match s.result with
    | some type => type.spelling
    | none => .keyword .void
  let parameters := s.parameters.map fun p => [p.type.spelling, .name p.name]
  .keyword (subroutineKind s.kind) :: result :: .name s.name
    :: .symbol '(' :: (commaSeparated parameters ++ [.symbol ')'])

/-- The tokens of a subroutine. -/
def subroutine (sub : Subroutine) : List Kind :=
  signature sub.toSignature ++ .symbol '{'
    :: (sub.locals.flatMap (fun d => .keyword .var :: varDec d)
      ++ (statements sub.body ++ [.symbol '}']))

end Spelling

/-- The tokens that spell a class. -/
def Class.spelling (c : Class) : List Kind :=
  .keyword .class :: .name c.name :: .symbol '{'
    :: (c.vars.flatMap (fun (kind, d) => .keyword (Spelling.classVarKind kind) :: Spelling.varDec d)
      ++ (c.subroutines.flatMap Spelling.subroutine ++ [.symbol '}']))

/-- Every declaration of the class declares something. -/
def Class.Declares (c : Class) : Prop :=
  (∀ v ∈ c.vars, v.2.names ≠ []) ∧ ∀ sub ∈ c.subroutines, ∀ d ∈ sub.locals, d.names ≠ []

end JackCompiler
