import JackCompiler.Instruction.Basic
import JackCompiler.Text.Blank
import JackCompiler.Text.Lines
import JackCompiler.Text.Numeral
/-!
# Reading instructions

An instruction is read from its blank-separated fields: the first names the operation, which fixes
how many operands follow. In code text every line holds at most one instruction; `//` begins a
comment that runs to the end of the line.
-/

namespace JackCompiler

/-- Why a text is no instruction. -/
inductive InstructionError
  /-- There is no field at all. -/
  | empty
  /-- The first field names no operation. -/
  | unknownOperation (name : String)
  /-- The operand should be a segment. -/
  | unknownSegment (name : String)
  /-- The operand should be a number below 65536. -/
  | invalidIndex (operand : String)
  /-- The operation takes another number of operands. -/
  | operandCount (name : String)
  deriving DecidableEq, Repr

/-- The wording of the error. -/
def InstructionError.message : InstructionError → String
  | empty => "Empty instruction"
  | unknownOperation name => "Unknown operation: `" ++ name ++ "`"
  | unknownSegment name => "Unknown segment: `" ++ name ++ "`"
  | invalidIndex operand => "Cannot parse `" ++ operand ++ "` as index"
  | operandCount name => "Wrong number of operands for `" ++ name ++ "`"

/-- What the first field of an instruction can name. -/
inductive Mnemonic
  | push
  | pop
  | label
  | goto
  | ifGoto
  | call
  | function
  | ret
  | compute (op : Operation)
  deriving DecidableEq, Repr

namespace Mnemonic

/-- The mnemonic as it is written. -/
def name : Mnemonic → String
  | push => "push"
  | pop => "pop"
  | label => "label"
  | goto => "goto"
  | ifGoto => "if-goto"
  | call => "call"
  | function => "function"
  | ret => "return"
  | compute op => op.name

/-- Every mnemonic. -/
def all : List Mnemonic :=
  [push, pop, label, goto, ifGoto, call, function, ret] ++ Operation.all.map compute

/-- The mnemonic with this name, in exactly this case. -/
def ofName? (s : String) : Option Mnemonic :=
  all.find? fun m => m.name == s

@[simp]
theorem ofName?_name (m : Mnemonic) : ofName? m.name = some m := by
  cases m with
  | compute op => cases op <;> decide
  | _ => decide

end Mnemonic

namespace Instruction

/-- The operand as a segment. -/
def segmentOperand (s : String) : Except InstructionError Segment :=
  match Segment.ofName? s with
  | some g => .ok g
  | none => .error (.unknownSegment s)

/-- The operand as a machine word. -/
def wordOperand (s : String) : Except InstructionError UInt16 :=
  match Text.word? s.toList with
  | some n => .ok n
  | none => .error (.invalidIndex s)

/-- The instruction that the fields spell. Operands are looked at from left to right, after their
number. -/
def ofFields : List String → Except InstructionError Instruction
  | [] => .error .empty
  | name :: operands =>
    match Mnemonic.ofName? name with
    | none => .error (.unknownOperation name)
    | some mnemonic =>
      match mnemonic, operands with
      | .push, [segment, index] => do
        return push (← segmentOperand segment) (← wordOperand index)
      | .pop, [segment, index] => do
        return pop (← segmentOperand segment) (← wordOperand index)
      | .label, [target] => .ok (label target)
      | .goto, [target] => .ok (goto target)
      | .ifGoto, [target] => .ok (ifGoto target)
      | .call, [target, args] => return call target (← wordOperand args)
      | .function, [target, locals] => return function target (← wordOperand locals)
      | .ret, [] => .ok ret
      | .compute op, [] => .ok (compute op)
      | _, _ => .error (.operandCount name)

/-- The instruction that the text spells. -/
def ofChars (cs : List Char) : Except InstructionError Instruction :=
  ofFields ((Text.fields cs).map String.ofList)

/-- The instruction that the text spells. -/
def ofText (s : String) : Except InstructionError Instruction :=
  ofChars s.toList

end Instruction

namespace Code

/-- The part of a line before its comment. -/
def beforeComment (line : List Char) : List Char :=
  go [] line
where
  /-- Looks for the comment in what is left of the line; `seen` is the part before, reversed. -/
  go (seen : List Char) : List Char → List Char
    | [] => seen.reverse
    | '/' :: '/' :: _ => seen.reverse
    | c :: rest => go (c :: seen) rest

/-- The instruction of one line of code text, or none if the line is blank up to its comment. -/
def ofLine (line : List Char) : Except InstructionError Code :=
  let statement := Text.trim (beforeComment line)
  if statement.isEmpty then .ok [] else return [← Instruction.ofChars statement]

/-- An error of code text: the line, counted from zero, and what is wrong with it. -/
structure LineError where
  line : Nat
  cause : InstructionError
  deriving DecidableEq, Repr

/-- The code that the text spells, or the error of the first line that spells none. -/
def ofText (s : String) : Except LineError Code := do
  let instructions ← (Text.lines s.toList).zipIdx.mapM fun (line, row) =>
    (ofLine line).mapError fun cause => { line := row, cause }
  return instructions.flatten

end Code

end JackCompiler
