import JackCompiler.Error
import JackCompiler.Text.Lines
import JackCompiler.Text.Style
/-!
# Diagnostics

An error as it is shown on a terminal: what is wrong, in which file, and, if the error is at one
place of the source, the line with a mark under that place. The mark stands as many columns from
the left as there are bytes before the place.
-/

namespace JackCompiler

open Text

namespace Diagnostic

/-- The line that says what is wrong. -/
def headline (e : CompileError) : String :=
  emphasised .red "error" ++ ": " ++ e.message ++ "\n"

/-- The line that says where. -/
def location (place : String) : String :=
  spaces 5 ++ coloured .blue "-->" ++ " " ++ underlined place ++ "\n"

/-- The bar at the left of the source line. -/
def bar : String :=
  spaces 6 ++ coloured .blue "|"

/-- The line of the source with this number. There is an empty one past the end. -/
def sourceLine (source : String) (row : Nat) : String :=
  String.ofList (((lines source.toList)[row]?).getD [])

/-- The source line with its number and the mark under a position. -/
def excerpt (source : String) (pos : Position) : String :=
  bar ++ "\n"
    ++ " " ++ coloured .blue (padLeft 4 (pos.row + 1).repr ++ " |") ++ " "
    ++ sourceLine source pos.row ++ "\n"
    ++ bar ++ " " ++ spaces pos.col ++ emphasised .red "^" ++ "\n"

/-- The diagnostic of an error in a file with the given source. -/
def render (file source : String) (e : CompileError) : String :=
  match e.pos? with
  | none => headline e ++ location file
  | some pos => headline e ++ location (file ++ ":" ++ pos.text) ++ excerpt source pos

end Diagnostic

end JackCompiler
