import JackCompiler.Emit.Class
import JackCompiler.Proofs.Machine
/-!
# What a subroutine means

The meaning of expressions and statements, said over the syntax tree and without code. An
expression has a value and may change the global state through the calls in it; it is worked off
from left to right, and no operator binds tighter than another. A statement changes the memory or
leaves the subroutine. Loops need not end, so the meaning of statements is a relation (`Runs`).

Names stand for what the symbol table says, and numbers are machine words, as everywhere in the
language. What a call does is the same parameter as for the machine.
-/

namespace JackCompiler

/-- The memory that a subroutine works on: its own and the global one. -/
structure Memory where
  frame : Frame
  globals : Globals

namespace Memory

/-- The value of a variable. A field is a cell of the current object. -/
def read (mem : Memory) (s : Symbol) : Word :=
  let i := UInt16.ofNat s.index
  match s.kind with
  | .static => mem.globals.statics i
  | .field => mem.globals.heap (mem.frame.this + i)
  | .argument => mem.frame.arguments i
  | .local => mem.frame.locals i

/-- The memory with a word put on the heap. -/
def store (mem : Memory) (address v : Word) : Memory :=
  { mem with globals := { mem.globals with heap := Function.update mem.globals.heap address v } }

/-- The memory with a new value of a variable. -/
def write (mem : Memory) (s : Symbol) (v : Word) : Memory :=
  let ⟨frame, globals⟩ := mem
  let i := UInt16.ofNat s.index
  match s.kind with
  | .static => ⟨frame, { globals with statics := Function.update globals.statics i v }⟩
  | .field => mem.store (frame.this + i) v
  | .argument => ⟨{ frame with arguments := Function.update frame.arguments i v }, globals⟩
  | .local => ⟨{ frame with locals := Function.update frame.locals i v }, globals⟩

end Memory

namespace Meaning

open Emit (Context)

/-! ## Expressions

Each meaning takes the global state and gives a value with the global state after it, or nothing
where a name is no variable. -/

/-- The meaning of a binary operator. There is no instruction for products and quotients. -/
def binary (calls : Callees) : BinaryOp → Word → Word → Globals → Word × Globals
  | .add, a, b, g => (a + b, g)
  | .sub, a, b, g => (a - b, g)
  | .mul, a, b, g => calls.answer "Math.multiply" [a, b] g
  | .div, a, b, g => calls.answer "Math.divide" [a, b] g
  | .and, a, b, g => (a &&& b, g)
  | .or, a, b, g => (a ||| b, g)
  | .lt, a, b, g => (Word.ofBool (Word.signedLt a b), g)
  | .gt, a, b, g => (Word.ofBool (Word.signedLt b a), g)
  | .eq, a, b, g => (Word.ofBool (a == b), g)

/-- The meaning of a unary operator. -/
def unary : UnaryOp → Word → Word
  | .neg, a => -a
  | .not, a => ~~~a

/-- The meaning of a constant that is written as a keyword. -/
def constant (frame : Frame) : NamedConstant → Word
  | .true => 0xFFFF
  | .false => 0
  | .null => 0
  | .this => frame.this

/-- The string object, after further characters were put behind it. -/
def append (calls : Callees) : List Char → Word → Globals → Word × Globals
  | [], object, g => (object, g)
  | c :: cs, object, g =>
    let (object, g) := calls.answer "String.appendChar" [object, UInt16.ofNat c.toNat] g
    append calls cs object g

/-- A new string object with the given characters. -/
def string (calls : Callees) (s : String) (g : Globals) : Word × Globals :=
  let (object, g) := calls.answer "String.new" [UInt16.ofNat s.length] g
  append calls s.toList object g

mutual

/-- The meaning of an expression. -/
def expr (ctx : Context) (calls : Callees) (frame : Frame) :
    Expr → Globals → Option (Word × Globals)
  | .mk head tail, g => do
    let (v, g) ← term ctx calls frame head g
    operands ctx calls frame tail v g

/-- The meaning of the operators of an expression, after the value of what stands before them. -/
def operands (ctx : Context) (calls : Callees) (frame : Frame) :
    List (BinaryOp × Term) → Word → Globals → Option (Word × Globals)
  | [], v, g => some (v, g)
  | (op, t) :: tail, a, g => do
    let (b, g) ← term ctx calls frame t g
    let (v, g) := binary calls op a b g
    operands ctx calls frame tail v g

/-- The meaning of a term. -/
def term (ctx : Context) (calls : Callees) (frame : Frame) :
    Term → Globals → Option (Word × Globals)
  | .integer n, g => some (n, g)
  | .string s, g => some (string calls s g)
  | .constant c, g => some (constant frame c, g)
  | .paren e, g => expr ctx calls frame e g
  | .unary op t, g => do
    let (v, g) ← term ctx calls frame t g
    return (unary op v, g)
  | .var name, g => do
    let s ← ctx.symbols.resolve name
    return (Memory.read ⟨frame, g⟩ s, g)
  | .index name e, g => do
    let s ← ctx.symbols.resolve name
    let base := Memory.read ⟨frame, g⟩ s
    let (offset, g) ← expr ctx calls frame e g
    return (g.heap (base + offset), g)
  | .call c, g => call ctx calls frame c g

/-- The meaning of a call. The object comes before the arguments. -/
def call (ctx : Context) (calls : Callees) (frame : Frame) :
    Call → Globals → Option (Word × Globals)
  | .mk none name args, g => do
    let (vs, g) ← arguments ctx calls frame args g
    return calls.answer (ctx.className ++ "." ++ name) (frame.this :: vs) g
  | .mk (some r) name args, g =>
    match ctx.symbols.resolve r with
    | some s => do
      let object := Memory.read ⟨frame, g⟩ s
      let (vs, g) ← arguments ctx calls frame args g
      return calls.answer (s.type ++ "." ++ name) (object :: vs) g
    | none => do
      let (vs, g) ← arguments ctx calls frame args g
      return calls.answer (r ++ "." ++ name) vs g

/-- The meaning of the arguments of a call. -/
def arguments (ctx : Context) (calls : Callees) (frame : Frame) :
    List Expr → Globals → Option (List Word × Globals)
  | [], g => some ([], g)
  | e :: es, g => do
    let (v, g) ← expr ctx calls frame e g
    let (vs, g) ← arguments ctx calls frame es g
    return (v :: vs, g)

end

/-! ## Statements -/

/-- How a statement ends. -/
inductive Outcome
  /-- The next statement comes, with this memory. -/
  | next (mem : Memory)
  /-- The subroutine is left. -/
  | returned (v : Word) (g : Globals)

/-- A condition holds when no bit of its value is clear. -/
def Holds (v : Word) : Prop := ~~~v = 0

mutual

/-- What a statement can do to a memory. -/
inductive Runs (ctx : Context) (calls : Callees) : Statement → Memory → Outcome → Prop
  | assign {name : String} {s : Symbol} {e : Expr} {mem : Memory} {v : Word} {g : Globals} :
    ctx.symbols.resolve name = some s →
    expr ctx calls mem.frame e mem.globals = some (v, g) →
    Runs ctx calls (.assign name none e) mem (.next (Memory.write ⟨mem.frame, g⟩ s v))
  /-- The address is worked out before the value. -/
  | assignEntry {name : String} {s : Symbol} {index e : Expr} {mem : Memory} {offset v : Word}
      {g g' : Globals} :
    ctx.symbols.resolve name = some s →
    expr ctx calls mem.frame index mem.globals = some (offset, g) →
    expr ctx calls mem.frame e g = some (v, g') →
    Runs ctx calls (.assign name (some index) e) mem
      (.next (Memory.store ⟨mem.frame, g'⟩ (mem.read s + offset) v))
  | branchYes {condition : Expr} {yes : List Statement} {no : Option (List Statement)}
      {mem : Memory} {v : Word} {g : Globals} {o : Outcome} :
    expr ctx calls mem.frame condition mem.globals = some (v, g) → Holds v →
    RunsAll ctx calls yes ⟨mem.frame, g⟩ o →
    Runs ctx calls (.branch condition yes no) mem o
  /-- A missing second block is empty. -/
  | branchNo {condition : Expr} {yes : List Statement} {no : Option (List Statement)}
      {mem : Memory} {v : Word} {g : Globals} {o : Outcome} :
    expr ctx calls mem.frame condition mem.globals = some (v, g) → ¬ Holds v →
    RunsAll ctx calls (no.getD []) ⟨mem.frame, g⟩ o →
    Runs ctx calls (.branch condition yes no) mem o
  | loopEnd {condition : Expr} {body : List Statement} {mem : Memory} {v : Word} {g : Globals} :
    expr ctx calls mem.frame condition mem.globals = some (v, g) → ¬ Holds v →
    Runs ctx calls (.loop condition body) mem (.next ⟨mem.frame, g⟩)
  /-- The body is run, and then the loop again. -/
  | loopAgain {condition : Expr} {body : List Statement} {mem mem' : Memory} {v : Word}
      {g : Globals} {o : Outcome} :
    expr ctx calls mem.frame condition mem.globals = some (v, g) → Holds v →
    RunsAll ctx calls body ⟨mem.frame, g⟩ (.next mem') →
    Runs ctx calls (.loop condition body) mem' o →
    Runs ctx calls (.loop condition body) mem o
  | loopLeave {condition : Expr} {body : List Statement} {mem : Memory} {v w : Word}
      {g g' : Globals} :
    expr ctx calls mem.frame condition mem.globals = some (v, g) → Holds v →
    RunsAll ctx calls body ⟨mem.frame, g⟩ (.returned w g') →
    Runs ctx calls (.loop condition body) mem (.returned w g')
  | perform {c : Call} {mem : Memory} {v : Word} {g : Globals} :
    call ctx calls mem.frame c mem.globals = some (v, g) →
    Runs ctx calls (.perform c) mem (.next ⟨mem.frame, g⟩)
  /-- A subroutine without a result gives zero, whatever value it works out. -/
  | leave {e : Expr} {mem : Memory} {v : Word} {g : Globals} :
    expr ctx calls mem.frame e mem.globals = some (v, g) →
    Runs ctx calls (.leave (some e)) mem (.returned (if ctx.isVoid then 0 else v) g)
  /-- A subroutine with a result cannot be left without one. -/
  | leaveVoid {mem : Memory} :
    ctx.isVoid → Runs ctx calls (.leave none) mem (.returned 0 mem.globals)

/-- What a block can do to a memory: its statements run in order, until one leaves. -/
inductive RunsAll (ctx : Context) (calls : Callees) : List Statement → Memory → Outcome → Prop
  | nil {mem : Memory} : RunsAll ctx calls [] mem (.next mem)
  | cons {s : Statement} {rest : List Statement} {mem mem' : Memory} {o : Outcome} :
    Runs ctx calls s mem (.next mem') → RunsAll ctx calls rest mem' o →
    RunsAll ctx calls (s :: rest) mem o
  | leave {s : Statement} {rest : List Statement} {mem : Memory} {v : Word} {g : Globals} :
    Runs ctx calls s mem (.returned v g) → RunsAll ctx calls (s :: rest) mem (.returned v g)

end

end Meaning

/-! ## Subroutines -/

/-- The local variables of a subroutine, in order. -/
def Subroutine.localNames (sub : Subroutine) : List String :=
  sub.locals.flatMap (·.names)

/-- The fields of an object of the class, in order. -/
def Class.fieldNames (c : Class) : List String :=
  c.vars.flatMap fun (kind, d) => if kind = .field then d.names else []

namespace Meaning

/-- What is known in a subroutine of a class. -/
def context (c : Class) (sub : Subroutine) : Emit.Context where
  className := c.name
  symbols := Emit.subroutineSymbols c.name (Emit.classSymbols c) sub
  isVoid := sub.result.isNone

/-- The memory in which the first statement of a subroutine runs. Local variables begin as zero; a
constructor asks for room for the fields of its object, and a method is given its object. -/
def enter (calls : Callees) (c : Class) (sub : Subroutine) (mem : Memory) : Memory :=
  let count := UInt16.ofNat sub.localNames.length
  let locals i := if i < count then 0 else mem.frame.locals i
  match sub.kind with
  | .constructor =>
    let (object, g) := calls.answer "Memory.alloc" [UInt16.ofNat c.fieldNames.length] mem.globals
    ⟨{ mem.frame with locals, this := object }, g⟩
  | .function => ⟨{ mem.frame with locals }, mem.globals⟩
  | .method => ⟨{ mem.frame with locals, this := mem.frame.arguments 0 }, mem.globals⟩

/-- A subroutine that is called with the given memory returns a word and leaves a global state
behind. There is nothing it returns if its statements come to their end or never end. -/
def Returns (calls : Callees) (c : Class) (sub : Subroutine) (mem : Memory) (v : Word)
    (g : Globals) : Prop :=
  RunsAll (context c sub) calls sub.body (enter calls c sub mem) (.returned v g)

end Meaning

end JackCompiler
