import JackCompiler.Syntax.Reader.Expression
/-!
# Reading statements, token by token

The body of a subroutine is read from behind its opening brace up to its closing brace. Blocks that
are nested in it are kept as a stack of frames, innermost first: each holds the statements before
the one to which the block belongs, and what has been read of that one.
-/

namespace JackCompiler

open Token (Kind)

namespace Reader

/-- What has been read of a statement, up to a block that belongs to it. -/
inductive StatementReader
  /-- `let`: the name of a variable must come. -/
  | assignName
  /-- The variable was read; `[` or `=` must come. -/
  | assignTarget (name : String)
  /-- The index is being read. -/
  | assignIndex (name : String) (e : ExprReader)
  /-- The index was read; `=` must come. -/
  | assignEquals (name : String) (index : Expr)
  /-- The value is being read. -/
  | assignValue (name : String) (index : Option Expr) (e : ExprReader)
  /-- `if`: `(` must come. -/
  | branchOpen
  /-- The condition is being read. -/
  | branchCondition (e : ExprReader)
  /-- The condition was read; `{` must come. -/
  | branchBrace (condition : Expr)
  /-- The first block and `else` were read; `{` must come. -/
  | branchElse (condition : Expr) (yes : List Statement)
  /-- `while`: `(` must come. -/
  | loopOpen
  /-- The condition is being read. -/
  | loopCondition (e : ExprReader)
  /-- The condition was read; `{` must come. -/
  | loopBrace (condition : Expr)
  /-- `do`: a name must come. -/
  | performName
  /-- The name was read; `(` or `.` must come. -/
  | performTarget (name : String)
  /-- The dot was read; the name of a subroutine must come. -/
  | performMember (receiver : String)
  /-- The name of the subroutine was read; `(` must come. -/
  | performOpen (head : CallHead)
  /-- `(` was read; an argument or `)` must come. -/
  | performArguments (head : CallHead)
  /-- An argument is being read after the given ones, last first. -/
  | performArgument (head : CallHead) (before : List Expr) (e : ExprReader)
  /-- The call was read; `;` must come. -/
  | performEnd (call : Call)
  /-- `return`: `;` or a value must come. -/
  | leave
  /-- The value is being read. -/
  | leaveValue (e : ExprReader)

/-- A block, other than the body itself, that is being read: the statements before the one to which
it belongs, last first, and what has been read of that one. -/
inductive BlockFrame
  /-- It is the first block of a branch. -/
  | yes (before : List Statement) (condition : Expr)
  /-- It is the second block of a branch. -/
  | no (before : List Statement) (condition : Expr) (yes : List Statement)
  /-- It is the body of a loop. -/
  | loop (before : List Statement) (condition : Expr)

/-- A body that is being read. The statements of the innermost block stand last first. -/
inductive BodyReader
  /-- A statement or the end of the innermost block must come. -/
  | block (done : List Statement) (frames : List BlockFrame)
  /-- The first block of a branch has ended; `else` may come. -/
  | branched (condition : Expr) (yes : List Statement) (done : List Statement)
      (frames : List BlockFrame)
  /-- A statement is being read. -/
  | statement (s : StatementReader) (done : List Statement) (frames : List BlockFrame)

namespace BodyReader

/-- A body of which nothing has been read. -/
def start : BodyReader := .block [] []

/-- The reader after a complete statement. -/
def afterStatement (s : Statement) (done : List Statement) (frames : List BlockFrame) :
    Step BodyReader (List Statement) :=
  .more (.block (s :: done) frames)

/-- The end of the innermost block. -/
def endBlock (done : List Statement) : List BlockFrame → Step BodyReader (List Statement)
  | [] => .finished done.reverse
  | .yes before condition :: frames => .more (.branched condition done.reverse before frames)
  | .no before condition yes :: frames =>
    .more (.block (.branch condition yes (some done.reverse) :: before) frames)
  | .loop before condition :: frames => .more (.block (.loop condition done.reverse :: before) frames)

/-- Takes a token where a statement or the end of a block must come. -/
def stepBlock (done : List Statement) (frames : List BlockFrame) :
    Kind → Step BodyReader (List Statement)
  | .symbol '}' => endBlock done frames
  | .keyword .let => .more (.statement .assignName done frames)
  | .keyword .if => .more (.statement .branchOpen done frames)
  | .keyword .while => .more (.statement .loopOpen done frames)
  | .keyword .do => .more (.statement .performName done frames)
  | .keyword .return => .more (.statement .leave done frames)
  | _ => .stuck

/-- Takes a token inside an expression: `carryOn` is the reader while the expression goes on, and
`close` takes the token after it. -/
def stepExpr (e : ExprReader) (k : Kind) (carryOn : ExprReader → StatementReader)
    (done : List Statement) (frames : List BlockFrame)
    (close : Expr → Kind → Step BodyReader (List Statement)) :
    Step BodyReader (List Statement) :=
  match e.step k with
  | .more e => .more (.statement (carryOn e) done frames)
  | .finished e => close e k
  | .stuck => .stuck

/-- Takes a token inside a statement. -/
def stepStatement (done : List Statement) (frames : List BlockFrame) :
    StatementReader → Kind → Step BodyReader (List Statement)
  | .assignName, .name name => .more (.statement (.assignTarget name) done frames)
  | .assignTarget name, .symbol '[' => .more (.statement (.assignIndex name .start) done frames)
  | .assignTarget name, .symbol '=' =>
    .more (.statement (.assignValue name none .start) done frames)
  | .assignIndex name e, k =>
    stepExpr e k (.assignIndex name) done frames fun
      | index, .symbol ']' => .more (.statement (.assignEquals name index) done frames)
      | _, _ => .stuck
  | .assignEquals name index, .symbol '=' =>
    .more (.statement (.assignValue name (some index) .start) done frames)
  | .assignValue name index e, k =>
    stepExpr e k (.assignValue name index) done frames fun
      | value, .symbol ';' => afterStatement (.assign name index value) done frames
      | _, _ => .stuck
  | .branchOpen, .symbol '(' => .more (.statement (.branchCondition .start) done frames)
  | .branchCondition e, k =>
    stepExpr e k .branchCondition done frames fun
      | condition, .symbol ')' => .more (.statement (.branchBrace condition) done frames)
      | _, _ => .stuck
  | .branchBrace condition, .symbol '{' => .more (.block [] (.yes done condition :: frames))
  | .branchElse condition yes, .symbol '{' => .more (.block [] (.no done condition yes :: frames))
  | .loopOpen, .symbol '(' => .more (.statement (.loopCondition .start) done frames)
  | .loopCondition e, k =>
    stepExpr e k .loopCondition done frames fun
      | condition, .symbol ')' => .more (.statement (.loopBrace condition) done frames)
      | _, _ => .stuck
  | .loopBrace condition, .symbol '{' => .more (.block [] (.loop done condition :: frames))
  | .performName, .name name => .more (.statement (.performTarget name) done frames)
  | .performTarget name, .symbol '(' =>
    .more (.statement (.performArguments ⟨none, name⟩) done frames)
  | .performTarget name, .symbol '.' => .more (.statement (.performMember name) done frames)
  | .performMember receiver, .name name =>
    .more (.statement (.performOpen ⟨some receiver, name⟩) done frames)
  | .performOpen head, .symbol '(' => .more (.statement (.performArguments head) done frames)
  | .performArguments head, .symbol ')' =>
    .more (.statement (.performEnd (head.call [])) done frames)
  | .performArguments head, k => stepArgument head [] .start k
  | .performArgument head before e, k => stepArgument head before e k
  | .performEnd call, .symbol ';' => afterStatement (.perform call) done frames
  | .leave, .symbol ';' => afterStatement (.leave none) done frames
  | .leave, k => stepValue .start k
  | .leaveValue e, k => stepValue e k
  | _, _ => .stuck
where
  /-- Takes a token inside an argument of a call. -/
  stepArgument (head : CallHead) (before : List Expr) (e : ExprReader) (k : Kind) :
      Step BodyReader (List Statement) :=
    stepExpr e k (.performArgument head before) done frames fun
      | e, .symbol ',' => .more (.statement (.performArgument head (e :: before) .start) done frames)
      | e, .symbol ')' => .more (.statement (.performEnd (head.call (e :: before))) done frames)
      | _, _ => .stuck
  /-- Takes a token inside the value of a `return`. -/
  stepValue (e : ExprReader) (k : Kind) : Step BodyReader (List Statement) :=
    stepExpr e k .leaveValue done frames fun
      | value, .symbol ';' => afterStatement (.leave (some value)) done frames
      | _, _ => .stuck

/-- Takes a token. The brace that ends the body is part of it. -/
def step : BodyReader → Kind → Step BodyReader (List Statement)
  | .block done frames, k => stepBlock done frames k
  | .branched condition yes done frames, .keyword .else =>
    .more (.statement (.branchElse condition yes) done frames)
  | .branched condition yes done frames, k => stepBlock (.branch condition yes none :: done) frames k
  | .statement s done frames, k => stepStatement done frames s k

end BodyReader

end Reader

end JackCompiler
