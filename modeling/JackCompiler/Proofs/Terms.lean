import JackCompiler.Syntax.Tree
/-!
# The terms of a syntax tree

Every term that is written in a tree, in the order of the text: a term comes before the terms inside
it. The names of the variables that are read are found among the terms; those that are written to
are the targets of assignments (`Uses`).
-/

namespace JackCompiler

namespace Terms

mutual

/-- The terms in an expression. -/
def expr : Expr → List Term
  | .mk head tail => term head ++ operands tail

/-- The terms behind the operators of an expression. -/
def operands : List (BinaryOp × Term) → List Term
  | [] => []
  | (_, t) :: tail => term t ++ operands tail

/-- A term and the terms inside it. -/
def term : Term → List Term
  | .paren e => .paren e :: expr e
  | .unary op t => .unary op t :: term t
  | .index name e => .index name e :: expr e
  | .call c => .call c :: call c
  | t => [t]

/-- The terms in the arguments of a call. -/
def call : Call → List Term
  | .mk _ _ args => arguments args

/-- The terms in a list of arguments. -/
def arguments : List Expr → List Term
  | [] => []
  | e :: es => expr e ++ arguments es

end

/-- The terms in an expression that may be missing. -/
def optional : Option Expr → List Term
  | some e => expr e
  | none => []

mutual

/-- The terms in a statement. -/
def statement : Statement → List Term
  | .assign _ index value => optional index ++ expr value
  | .branch condition yes no =>
    let other := match no with
      | some block => statements block
      | none => []
    expr condition ++ (statements yes ++ other)
  | .loop condition body => expr condition ++ statements body
  | .perform c => call c
  | .leave value => optional value

/-- The terms in a block. -/
def statements : List Statement → List Term
  | [] => []
  | s :: rest => statement s ++ statements rest

end

/-- The terms in a class. -/
def ofClass (c : Class) : List Term :=
  c.subroutines.flatMap fun sub => statements sub.body

end Terms

/-! ## Variables -/

/-- The name of the variable that the term itself reads: of the variable that it is, or of the one
that holds the array of which it is an entry. The names in a call stand for no variable that must be
declared. -/
def Term.variable? : Term → Option String
  | .var name => some name
  | .index name _ => some name
  | _ => none

namespace Uses

/-- The variables that the terms read, in order. -/
def terms (ts : List Term) : List String :=
  ts.filterMap Term.variable?

theorem terms_append (a b : List Term) : terms (a ++ b) = terms a ++ terms b :=
  List.filterMap_append

mutual

/-- The variables that a statement names, in the order of the text. The target of an assignment
stands before its index and its value. -/
def statement : Statement → List String
  | .assign name index value => name :: (terms (Terms.optional index) ++ terms (Terms.expr value))
  | .branch condition yes no =>
    let other := match no with
      | some block => statements block
      | none => []
    terms (Terms.expr condition) ++ (statements yes ++ other)
  | .loop condition body => terms (Terms.expr condition) ++ statements body
  | .perform c => terms (Terms.call c)
  | .leave value => terms (Terms.optional value)

/-- The variables that a block names. -/
def statements : List Statement → List String
  | [] => []
  | s :: rest => statement s ++ statements rest

end

end Uses

end JackCompiler
