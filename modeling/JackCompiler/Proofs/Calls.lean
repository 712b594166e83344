import JackCompiler.Syntax.Tree
/-!
# The calls of a syntax tree

Every call that is written in a tree, in the order in which the calls are made: the calls among the
arguments of a call come before it.
-/

namespace JackCompiler

/-- The arguments of a call. -/
def Call.args : Call → List Expr
  | .mk _ _ args => args

namespace Calls

mutual

/-- The calls in an expression. -/
def expr : Expr → List Call
  | .mk head tail => term head ++ operands tail

/-- The calls in the terms behind the operators of an expression. -/
def operands : List (BinaryOp × Term) → List Call
  | [] => []
  | (_, t) :: tail => term t ++ operands tail

/-- The calls in a term. -/
def term : Term → List Call
  | .paren e => expr e
  | .unary _ t => term t
  | .index _ e => expr e
  | .call c => call c
  | _ => []

/-- A call and the calls in its arguments. -/
def call : Call → List Call
  | .mk receiver name args => arguments args ++ [.mk receiver name args]

/-- The calls in the arguments of a call. -/
def arguments : List Expr → List Call
  | [] => []
  | e :: es => expr e ++ arguments es

end

/-- The calls in an expression that may be missing. -/
def optional : Option Expr → List Call
  | some e => expr e
  | none => []

mutual

/-- The calls in a statement. -/
def statement : Statement → List Call
  | .assign _ index value => optional index ++ expr value
  | .branch condition yes no =>
    let other := match no with
      | some block => statements block
      | none => []
    expr condition ++ (statements yes ++ other)
  | .loop condition body => expr condition ++ statements body
  | .perform c => call c
  | .leave value => optional value

/-- The calls in a block. -/
def statements : List Statement → List Call
  | [] => []
  | s :: rest => statement s ++ statements rest

end

/-- The calls in a class. -/
def ofClass (c : Class) : List Call :=
  c.subroutines.flatMap fun sub => statements sub.body

/-- The arguments of every call can be counted in a word, also with an object before them. -/
def Fit (calls : List Call) : Prop :=
  ∀ c ∈ calls, c.args.length < 65535

instance (calls : List Call) : Decidable (Fit calls) :=
  inferInstanceAs (Decidable (∀ c ∈ calls, c.args.length < 65535))

@[simp]
theorem fit_append {a b : List Call} : Fit (a ++ b) ↔ Fit a ∧ Fit b :=
  List.forall_mem_append

/-- The calls of a class fit if those of its subroutines do. -/
theorem fit_ofClass {c : Class} :
    Fit (ofClass c) ↔ ∀ sub ∈ c.subroutines, Fit (statements sub.body) :=
  List.forall_mem_flatMap

/-- A missing second block of a branch has no calls, like an empty one. -/
theorem statement_branch {condition : Expr} {yes : List Statement}
    {no : Option (List Statement)} :
    statement (.branch condition yes no)
      = expr condition ++ (statements yes ++ statements (no.getD [])) := by
  cases no <;> rfl

/-- The calls of a branch fit if those of its condition and its blocks do. -/
theorem fit_branch {condition : Expr} {yes : List Statement} {no : Option (List Statement)} :
    Fit (statement (.branch condition yes no)) ↔
      Fit (expr condition) ∧ Fit (statements yes) ∧ Fit (statements (no.getD [])) := by
  rw [statement_branch, fit_append, fit_append]

end Calls

end JackCompiler
