import JackCompiler.Syntax.Tree
import JackCompiler.Symbols
/-!
# Code of expressions

The code of an expression leaves its value on top of the stack. Operators come after their two
operands, and the arguments of a call before it, in the order of the text.

Numbers of an instruction are machine words: the length of a string, the code of a character and the
number of arguments are taken modulo 65536.
-/

namespace JackCompiler

/-- Why a class has no code: the name is no variable where it is used. -/
structure UndeclaredVariable where
  name : String
  deriving DecidableEq, Repr

/-- The wording of the error. -/
def UndeclaredVariable.message (e : UndeclaredVariable) : String :=
  "Undefined variable: `" ++ e.name ++ "`"

namespace Emit

/-- What the code of a subroutine depends on besides its statements. -/
structure Context where
  className : String
  symbols : SymbolTable
  /-- The subroutine has no result. -/
  isVoid : Bool

/-- The variable that a name stands for. -/
def Context.lookup (ctx : Context) (name : String) : Except UndeclaredVariable Symbol :=
  match ctx.symbols.resolve name with
  | some s => .ok s
  | none => .error ⟨name⟩

/-- Puts a variable on the stack. -/
def pushSymbol (s : Symbol) : Instruction :=
  .push s.kind.segment (UInt16.ofNat s.index)

/-- Moves the top of the stack into a variable. -/
def popSymbol (s : Symbol) : Instruction :=
  .pop s.kind.segment (UInt16.ofNat s.index)

/-- Works a binary operator. -/
def binary : BinaryOp → Instruction
  | .add => .compute .add
  | .sub => .compute .sub
  | .mul => .call "Math.multiply" 2
  | .div => .call "Math.divide" 2
  | .and => .compute .and
  | .or => .compute .or
  | .lt => .compute .lt
  | .gt => .compute .gt
  | .eq => .compute .eq

/-- Works a unary operator. -/
def unary : UnaryOp → Instruction
  | .neg => .compute .neg
  | .not => .compute .not

/-- Puts a constant on the stack that is written as a keyword. -/
def constant : NamedConstant → Code
  | .true => [.push .constant 1, .compute .neg]
  | .false => [.push .constant 0]
  | .null => [.push .constant 0]
  | .this => [.push .pointer 0]

/-- Makes a string object, character by character. -/
def string (s : String) : Code :=
  [.push .constant (UInt16.ofNat s.length), .call "String.new" 1]
    ++ s.toList.flatMap fun c =>
      [.push .constant (UInt16.ofNat c.toNat), .call "String.appendChar" 2]

/-- The name of a subroutine of a class. -/
def qualified (className name : String) : String :=
  className ++ "." ++ name

/-- A call, given the code of its arguments and their number. Without a receiver it goes to the
current object; a variable before the dot is the object; another name there is a class, whose
subroutine gets no object. -/
def callWith (ctx : Context) (receiver : Option String) (name : String) (args : Code)
    (count : UInt16) : Code :=
  match receiver with
  | none => .push .pointer 0 :: (args ++ [.call (qualified ctx.className name) (count + 1)])
  | some r =>
    match ctx.symbols.resolve r with
    | some s => pushSymbol s :: (args ++ [.call (qualified s.type name) (count + 1)])
    | none => args ++ [.call (qualified r name) count]

mutual

/-- The code of an expression. -/
def expr (ctx : Context) : Expr → Except UndeclaredVariable Code
  | .mk head tail => do
    let first ← term ctx head
    let rest ← operands ctx tail
    return first ++ rest

/-- The code of the operators of an expression, each after its right operand. -/
def operands (ctx : Context) : List (BinaryOp × Term) → Except UndeclaredVariable Code
  | [] => return []
  | (op, t) :: tail => do
    let first ← term ctx t
    let rest ← operands ctx tail
    return first ++ binary op :: rest

/-- The code of a term. -/
def term (ctx : Context) : Term → Except UndeclaredVariable Code
  | .integer n => return [.push .constant n]
  | .string s => return string s
  | .constant c => return constant c
  | .paren e => expr ctx e
  | .unary op t => return (← term ctx t) ++ [unary op]
  | .var name => return [pushSymbol (← ctx.lookup name)]
  | .index name e => do
    let s ← ctx.lookup name
    let offset ← expr ctx e
    return pushSymbol s :: (offset ++ [.compute .add, .pop .pointer 1, .push .that 0])
  | .call c => call ctx c

/-- The code of a call. -/
def call (ctx : Context) : Call → Except UndeclaredVariable Code
  | .mk receiver name args => do
    let code ← arguments ctx args
    return callWith ctx receiver name code (UInt16.ofNat args.length)

/-- The code of the arguments of a call. -/
def arguments (ctx : Context) : List Expr → Except UndeclaredVariable Code
  | [] => return []
  | e :: es => do
    let first ← expr ctx e
    let rest ← arguments ctx es
    return first ++ rest

end

end Emit

end JackCompiler
