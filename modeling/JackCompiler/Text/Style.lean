/-!
# Styled terminal text

The escape sequences that switch a terminal's colour and weight, and padding to a column. A style
stays on until another one, or the matching reset, switches it off.
-/

namespace JackCompiler

namespace Text

/-- A switch of the terminal's rendition. -/
inductive Style
  | red
  | green
  | yellow
  | blue
  | cyan
  | plainColour
  | bold
  | plainWeight
  | underline
  | plainLine
  deriving DecidableEq, Repr

/-- The parameter by which the terminal knows the switch. -/
def Style.number : Style → Nat
  | red => 31
  | green => 32
  | yellow => 33
  | blue => 34
  | cyan => 36
  | plainColour => 39
  | bold => 1
  | plainWeight => 22
  | underline => 4
  | plainLine => 24

/-- The escape sequence of the switch. -/
def Style.escape (s : Style) : String :=
  "\x1b[" ++ s.number.repr ++ "m"

/-- The text in one colour, with the terminal's own colour after it. -/
def coloured (colour : Style) (s : String) : String :=
  colour.escape ++ s ++ Style.plainColour.escape

/-- The text in one colour and bold, with both switched off after it. -/
def emphasised (colour : Style) (s : String) : String :=
  colour.escape ++ Style.bold.escape ++ s ++ Style.plainColour.escape ++ Style.plainWeight.escape

/-- The text underlined. -/
def underlined (s : String) : String :=
  Style.underline.escape ++ s ++ Style.plainLine.escape

/-- `n` spaces. -/
def spaces (n : Nat) : String :=
  String.ofList (List.replicate n ' ')

/-- The text with spaces after it up to a width in characters; a longer text is kept whole. -/
def padRight (width : Nat) (s : String) : String :=
  s ++ spaces (width - s.length)

/-- The text with spaces before it up to a width in characters; a longer text is kept whole. -/
def padLeft (width : Nat) (s : String) : String :=
  spaces (width - s.length) ++ s

end Text

end JackCompiler
