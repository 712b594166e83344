/-!
# Positions in a source text

A position is a line and a column, both counted from zero. Columns count bytes of the line's UTF-8
form, so a character takes as many columns as bytes.
-/

namespace JackCompiler

/-- A place in a source text. -/
structure Position where
  row : Nat
  col : Nat
  deriving DecidableEq, Repr

/-- The position as it is shown: line and column counted from one. -/
def Position.text (p : Position) : String :=
  (p.row + 1).repr ++ ":" ++ (p.col + 1).repr

/-- The number of columns that the characters take. -/
def columns (cs : List Char) : Nat :=
  cs.foldl (fun n c => n + c.utf8Size) 0

end JackCompiler
