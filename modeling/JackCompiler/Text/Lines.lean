/-!
# Lines of a text

A line ends at a line feed, or at the end of the text. The carriage return that may stand directly
before the line feed belongs to the line's end; anywhere else it is a character like any other.
-/

namespace JackCompiler

namespace Text

/-- The line without one carriage return at its end. -/
def dropReturn (line : List Char) : List Char :=
  if line.getLast? = some '\r' then line.dropLast else line

/-- The lines of a text, without their ends. A text that ends in a line feed has no empty line
after it, so the empty text has no lines. -/
def lines (cs : List Char) : List (List Char) :=
  let pieces := cs.splitOn '\n'
  pieces.dropLast.map dropReturn ++ pieces.getLast?.toList.filter fun line => !line.isEmpty

theorem lines_nil : lines [] = [] := by simp [lines]

end Text

end JackCompiler
