import JackCompiler.Emit.Expression
import JackCompiler.Labels
/-!
# Code of statements

The code of a statement leaves the stack as it found it, unless it leaves the subroutine. Each
branch and each loop takes a pair of fresh labels before its parts are looked at, so the outer of
two nested statements has the smaller number. A label that was taken stays taken when an error is
found later.
-/

namespace JackCompiler

namespace Emit

/-- Emitting code with fresh labels. The counter is kept when the emission fails. -/
abbrev EmitM := EStateM UndeclaredVariable Labels

/-- Takes a pair of fresh labels. -/
def freshPair (stem first second : String) : EmitM (String × String) :=
  modifyGet fun labels => labels.pair stem first second

/-- The code of an assignment to a variable, or to an entry of the array that it holds. The address
of the entry waits on the stack while the value is worked out. -/
def assign (ctx : Context) (name : String) (index : Option Expr) (value : Expr) :
    Except UndeclaredVariable Code := do
  let s ← ctx.lookup name
  match index with
  | none =>
    let code ← expr ctx value
    return code ++ [popSymbol s]
  | some index =>
    let offset ← expr ctx index
    let code ← expr ctx value
    return pushSymbol s :: (offset ++ .compute .add :: (code
      ++ [.pop .temp 0, .pop .pointer 1, .push .temp 0, .pop .that 0]))

/-- The code that leaves the subroutine. One without a result leaves zero. -/
def leave (ctx : Context) (value : Option Expr) : Except UndeclaredVariable Code := do
  let code ← match value with
    | some e => expr ctx e
    | none => pure []
  return code ++ (if ctx.isVoid then [.push .constant 0, .ret] else [.ret])

mutual

/-- The code of a statement. -/
def statement (ctx : Context) : Statement → EmitM Code
  | .assign name index value => ofExcept (assign ctx name index value)
  | .branch condition yes no => do
    let (atElse, atEnd) ← freshPair "IF" "FALSE" "END"
    let test ← ofExcept (expr ctx condition)
    let first ← statements ctx yes
    let second ← match no with
      | some block => statements ctx block
      | none => pure []
    return test ++ .compute .not :: .ifGoto atElse :: (first
      ++ .goto atEnd :: .label atElse :: (second ++ [.label atEnd]))
  | .loop condition body => do
    let (atTest, atEnd) ← freshPair "WHILE" "EXP" "END"
    let test ← ofExcept (expr ctx condition)
    let code ← statements ctx body
    return .label atTest :: (test ++ .compute .not :: .ifGoto atEnd :: (code
      ++ [.goto atTest, .label atEnd]))
  | .perform c => return (← ofExcept (call ctx c)) ++ [.pop .temp 0]
  | .leave value => ofExcept (leave ctx value)

/-- The code of a block. -/
def statements (ctx : Context) : List Statement → EmitM Code
  | [] => return []
  | s :: rest => do
    let first ← statement ctx s
    let others ← statements ctx rest
    return first ++ others

end

end Emit

end JackCompiler
