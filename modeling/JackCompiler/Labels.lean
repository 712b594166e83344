/-!
# Fresh labels

Labels are made in pairs: one branch or loop needs two. The number at the end of both is used for
no other pair, and the counter goes on from one source to the next.
-/

namespace JackCompiler

/-- The number of the next pair of labels. -/
structure Labels where
  next : Nat := 0
  deriving DecidableEq, Repr

namespace Labels

/-- A label: what it belongs to, its role there, and its number. -/
def text (stem role : String) (number : Nat) : String :=
  stem ++ "_" ++ role ++ "_" ++ number.repr

/-- A pair of labels, and the counter after it. -/
def pair (l : Labels) (stem first second : String) : (String × String) × Labels :=
  ((text stem first l.next, text stem second l.next), { next := l.next + 1 })

end Labels

end JackCompiler
