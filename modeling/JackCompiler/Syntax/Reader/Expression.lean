import JackCompiler.Syntax.Tree
import JackCompiler.Token.Basic
/-!
# Reading expressions, token by token

A reader holds what has been read of a phrase and takes one more token at a time. A token either
carries the phrase on, or ends it, or cannot stand there. Nested expressions are kept as a stack of
frames, innermost first: each says what the expression inside it is for.

An expression has no token of its own at its end: it is finished by the first token that cannot
carry it on, and that token is left to the phrase around it.
-/

namespace JackCompiler

open Token (Kind)

/-- What a token does to a phrase that is being read. -/
inductive Step (σ α : Type)
  /-- The token belongs to the phrase, and more must follow. -/
  | more (s : σ)
  /-- The phrase is finished. -/
  | finished (a : α)
  /-- The token cannot stand here. -/
  | stuck

namespace Reader

/-- The type that a token names. -/
def varType? : Kind → Option VarType
  | .keyword .int => some .int
  | .keyword .char => some .char
  | .keyword .boolean => some .boolean
  | .name s => some (.object s)
  | _ => none

/-- The name in a token. -/
def name? : Kind → Option String
  | .name s => some s
  | _ => none

/-- The constant that a keyword names. -/
def constant? : Keyword → Option NamedConstant
  | .true => some .true
  | .false => some .false
  | .null => some .null
  | .this => some .this
  | _ => none

/-- The binary operator that a token stands for. -/
def binaryOp? : Kind → Option BinaryOp
  | .symbol c => BinaryOp.ofSymbol? c
  | _ => none

/-- The part of an expression before a term: the terms already read, each with the operator after
it, last first, and the unary operators that wait for the term, last first. -/
structure Operands where
  done : List (Term × BinaryOp) := []
  unary : List UnaryOp := []

namespace Operands

/-- The term under the unary operators that waited for it. -/
def wrap (o : Operands) (t : Term) : Term :=
  o.unary.foldl (fun t op => .unary op t) t

/-- The expression that ends with a term. -/
def close (o : Operands) (t : Term) : Expr :=
  go o.done t []
where
  /-- Moves the terms before `t` in front of it; `tail` is what follows `t`. -/
  go : List (Term × BinaryOp) → Term → List (BinaryOp × Term) → Expr
    | [], t, tail => .mk t tail
    | (before, op) :: done, t, tail => go done before ((op, t) :: tail)

end Operands

/-- A call up to its arguments. -/
structure CallHead where
  receiver : Option String
  name : String

/-- The call with its arguments, last first. -/
def CallHead.call (h : CallHead) (args : List Expr) : Call :=
  .mk h.receiver h.name args.reverse

/-- What a nested expression is for. Each frame holds the part of the expression around it that
stands before the term in which it is nested. -/
inductive ExprFrame
  /-- It stands in parentheses. -/
  | paren (outer : Operands)
  /-- It is the index of an array. -/
  | index (name : String) (outer : Operands)
  /-- It is an argument of a call, after the given ones, last first. -/
  | argument (head : CallHead) (before : List Expr) (outer : Operands)

/-- An expression that is being read. -/
inductive ExprReader
  /-- A term must come. -/
  | term (now : Operands) (frames : List ExprFrame)
  /-- A name was read; a bracket, a parenthesis or a dot may go on with it. -/
  | named (name : String) (now : Operands) (frames : List ExprFrame)
  /-- A name and a dot were read; the name of a subroutine must come. -/
  | member (receiver : String) (now : Operands) (frames : List ExprFrame)
  /-- The name of a subroutine was read; the parenthesis before its arguments must come. -/
  | callOpen (head : CallHead) (now : Operands) (frames : List ExprFrame)
  /-- That parenthesis was read; an argument or the closing parenthesis must come. -/
  | arguments (head : CallHead) (now : Operands) (frames : List ExprFrame)
  /-- A term was read; an operator may come. -/
  | operator (now : Operands) (last : Term) (frames : List ExprFrame)

namespace ExprReader

/-- An expression of which nothing has been read. -/
def start : ExprReader := .term {} []

/-- The reader after a complete term. -/
def afterTerm (now : Operands) (frames : List ExprFrame) (t : Term) : ExprReader :=
  .operator { now with unary := [] } (now.wrap t) frames

/-- Takes a token where a term must come. -/
def stepTerm (now : Operands) (frames : List ExprFrame) : Kind → Step ExprReader Expr
  | .integer n => .more (afterTerm now frames (.integer n))
  | .string s => .more (afterTerm now frames (.string s))
  | .keyword k =>
    match constant? k with
    | some c => .more (afterTerm now frames (.constant c))
    | none => .stuck
  | .symbol c =>
    match c with
    | '(' => .more (.term {} (.paren now :: frames))
    | '-' => .more (.term { now with unary := .neg :: now.unary } frames)
    | '~' => .more (.term { now with unary := .not :: now.unary } frames)
    | _ => .stuck
  | .name s => .more (.named s now frames)

/-- Takes a token, not an operator, after a complete expression: it closes the innermost frame or,
if there is none, finishes the reading. -/
def stepClose (e : Expr) : List ExprFrame → Kind → Step ExprReader Expr
  | [], _ => .finished e
  | .paren outer :: frames, .symbol ')' => .more (afterTerm outer frames (.paren e))
  | .index name outer :: frames, .symbol ']' => .more (afterTerm outer frames (.index name e))
  | .argument head before outer :: frames, .symbol ')' =>
    .more (afterTerm outer frames (.call (head.call (e :: before))))
  | .argument head before outer :: frames, .symbol ',' =>
    .more (.term {} (.argument head (e :: before) outer :: frames))
  | _, _ => .stuck

/-- Takes a token after a complete term. -/
def stepOperator (now : Operands) (last : Term) (frames : List ExprFrame) (k : Kind) :
    Step ExprReader Expr :=
  match binaryOp? k with
  | some op => .more (.term { done := (last, op) :: now.done } frames)
  | none => stepClose (now.close last) frames k

/-- Takes a token after a name. If the token does not go on with it, the name is a variable. -/
def stepNamed (name : String) (now : Operands) (frames : List ExprFrame) :
    Kind → Step ExprReader Expr
  | .symbol '[' => .more (.term {} (.index name now :: frames))
  | .symbol '(' => .more (.arguments ⟨none, name⟩ now frames)
  | .symbol '.' => .more (.member name now frames)
  | k => stepOperator { now with unary := [] } (now.wrap (.var name)) frames k

/-- Takes a token. When the expression is finished, the token is not part of it. -/
def step : ExprReader → Kind → Step ExprReader Expr
  | .term now frames, k => stepTerm now frames k
  | .named name now frames, k => stepNamed name now frames k
  | .member receiver now frames, .name name => .more (.callOpen ⟨some receiver, name⟩ now frames)
  | .callOpen head now frames, .symbol '(' => .more (.arguments head now frames)
  | .arguments head now frames, .symbol ')' =>
    .more (afterTerm now frames (.call (head.call [])))
  | .arguments head now frames, k => stepTerm {} (.argument head [] now :: frames) k
  | .operator now last frames, k => stepOperator now last frames k
  | _, _ => .stuck

end ExprReader

end Reader

end JackCompiler
