import JackCompiler.Instruction.Basic
import JackCompiler.Text.Style
/-!
# Code listings

Code as it is shown on a terminal: operations in red, the places they name in blue or green,
numbers in yellow, and a rule above each function.
-/

namespace JackCompiler

open Text

/-- The width of the columns for operations and for what they act on. -/
def Instruction.columnWidth : Nat := 9

/-- A line with an operation, what it acts on, and a number. -/
def Instruction.listingRow (operation target : String) (number : UInt16) : String :=
  "  " ++ Style.red.escape ++ padRight columnWidth operation ++ Style.blue.escape
    ++ padRight columnWidth target ++ coloured .yellow number.toNat.repr

/-- A line with an operation alone. -/
def Instruction.listingWord (operation : String) : String :=
  "  " ++ coloured .red operation

/-- A line with a jump and the label it goes to. -/
def Instruction.listingJump (operation target : String) : String :=
  "  " ++ Style.red.escape ++ padRight columnWidth operation ++ coloured .green target

/-- The line of an instruction in a listing. -/
def Instruction.listing : Instruction → String
  | push segment index => listingRow "push" segment.name index
  | pop segment index => listingRow "pop" segment.name index
  | compute op => listingWord op.name
  | label name => coloured .green (name ++ ":")
  | goto name => listingJump "goto" name
  | ifGoto name => listingJump "if-goto" name
  | call name args => listingRow "call" name args
  | function name locals =>
    emphasised .cyan ("function " ++ name) ++ " " ++ coloured .yellow locals.toNat.repr
  | ret => listingWord "return"

/-- The rule above a function. -/
def Code.rule : String :=
  String.ofList (List.replicate 55 '-')

/-- The listing of code: the lines of its instructions, with a rule above each function. -/
def Code.listing (code : Code) : String :=
  "\n".intercalate <| code.flatMap fun i =>
    if i.isFunction then [rule, i.listing] else [i.listing]

end JackCompiler
