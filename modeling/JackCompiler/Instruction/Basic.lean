/-!
# Instructions of the stack machine

The machine has eight memory segments, nine operations on the top of its stack, labels and jumps
inside a function, and calls between functions. Operands are sixteen-bit words. This file holds the
instructions and their text.
-/

namespace JackCompiler

/-- The memory segments that a push reads and a pop writes. -/
inductive Segment
  | constant
  | argument
  | «local»
  | static
  | this
  | that
  | pointer
  | temp
  deriving DecidableEq, Repr

namespace Segment

/-- Every segment. -/
def all : List Segment :=
  [constant, argument, «local», static, this, that, pointer, temp]

/-- The segment as it is written in an instruction. -/
def name : Segment → String
  | constant => "constant"
  | argument => "argument"
  | «local» => "local"
  | static => "static"
  | this => "this"
  | that => "that"
  | pointer => "pointer"
  | temp => "temp"

/-- The segment with this name, in exactly this case. -/
def ofName? (s : String) : Option Segment :=
  all.find? fun g => g.name == s

@[simp]
theorem ofName?_name (g : Segment) : ofName? g.name = some g := by
  cases g <;> decide

end Segment

/-- The operations on the top of the stack. -/
inductive Operation
  | add
  | sub
  | neg
  | eq
  | gt
  | lt
  | and
  | or
  | not
  deriving DecidableEq, Repr

namespace Operation

/-- Every operation. -/
def all : List Operation :=
  [add, sub, neg, eq, gt, lt, and, or, not]

/-- The operation as it is written. -/
def name : Operation → String
  | add => "add"
  | sub => "sub"
  | neg => "neg"
  | eq => "eq"
  | gt => "gt"
  | lt => "lt"
  | and => "and"
  | or => "or"
  | not => "not"

/-- The operation with this name, in exactly this case. -/
def ofName? (s : String) : Option Operation :=
  all.find? fun op => op.name == s

end Operation

/-- An instruction. -/
inductive Instruction
  /-- Puts a cell of a segment, or the index itself as a constant, on the stack. -/
  | push (segment : Segment) (index : UInt16)
  /-- Moves the top of the stack into a cell of a segment. -/
  | pop (segment : Segment) (index : UInt16)
  /-- Replaces the topmost one or two words by the result of an operation. -/
  | compute (op : Operation)
  /-- Marks a place in the function. -/
  | label (name : String)
  /-- Goes on at a label. -/
  | goto (name : String)
  /-- Takes a word off the stack and goes on at a label unless the word is zero. -/
  | ifGoto (name : String)
  /-- Calls a function with the topmost words as its arguments. -/
  | call (name : String) (args : UInt16)
  /-- Begins a function with so many local cells. -/
  | function (name : String) (locals : UInt16)
  /-- Leaves the function with the top of the stack as its result. -/
  | ret
  deriving DecidableEq, Repr

/-- Machine code. -/
abbrev Code := List Instruction

namespace Instruction

/-- Does the instruction begin a function? -/
def isFunction : Instruction → Bool
  | function .. => true
  | _ => false

/-- The instruction on a line of code text. -/
def text : Instruction → String
  | push segment index => "push " ++ segment.name ++ " " ++ index.toNat.repr
  | pop segment index => "pop " ++ segment.name ++ " " ++ index.toNat.repr
  | compute op => op.name
  | label name => "label " ++ name
  | goto name => "goto " ++ name
  | ifGoto name => "if-goto " ++ name
  | call name args => "call " ++ name ++ " " ++ args.toNat.repr
  | function name locals => "function " ++ name ++ " " ++ locals.toNat.repr
  | ret => "return"

end Instruction

/-- Code as text: every instruction on a line of its own. -/
def Code.text (code : Code) : String :=
  String.join (code.map fun i => i.text ++ "\n")

end JackCompiler
