import JackCompiler.Text.Blank
import JackCompiler.Token.Spelling
/-!
# Source texts that spell tokens

How tokens can be laid out in a text. Between two tokens stands a gap: blanks, line ends among them,
and comments of both kinds. A token stands where its first character does; what comes before it in
the text determines its position.
-/

namespace JackCompiler

namespace Position

/-- The position behind a character. -/
def next (p : Position) (c : Char) : Position :=
  if c = '\n' then ⟨p.row + 1, 0⟩ else ⟨p.row, p.col + c.utf8Size⟩

/-- The position behind a text. -/
def after (p : Position) (cs : List Char) : Position :=
  cs.foldl next p

end Position

namespace Token

/-- What can stand between two tokens. -/
inductive Spacer
  | blank (c : Char)
  /-- A comment up to the end of its line. -/
  | lineComment (text : List Char)
  /-- A comment between `/*` and `*/`. -/
  | blockComment (text : List Char)

namespace Spacer

/-- The characters that are written. -/
def text : Spacer → List Char
  | blank c => [c]
  | lineComment text => '/' :: '/' :: (text ++ ['\n'])
  | blockComment text => '/' :: '*' :: (text ++ ['*', '/'])

/-- The line begins with `*`, blanks apart. -/
def BeginsWithStar (line : List Char) : Prop :=
  (line.dropWhile Text.isBlank).head? = some '*'

/-- A block comment ends at the first `*/`, and each line on which it goes on begins with `*`. -/
def WellFormed : Spacer → Prop
  | blank c => Text.isBlank c
  | lineComment text => '\n' ∉ text
  | blockComment text => ¬ ['*', '/'] <:+: text ∧
    ∀ line ∈ ((text ++ ['*', '/']).splitOn '\n').tail, BeginsWithStar line

instance (line : List Char) : Decidable (BeginsWithStar line) :=
  inferInstanceAs (Decidable (_ = _))

instance : DecidablePred WellFormed
  | blank _ => inferInstanceAs (Decidable (_ = _))
  | lineComment _ => inferInstanceAs (Decidable (¬ _))
  | blockComment _ => inferInstanceAs (Decidable (_ ∧ _))

end Spacer

/-- The space before, between or behind tokens. -/
structure Gap where
  spacers : List Spacer
  wellFormed : ∀ s ∈ spacers, s.WellFormed

namespace Gap

/-- The characters of the space. -/
def text (g : Gap) : List Char :=
  g.spacers.flatMap Spacer.text

/-- No token reaches from before the space over it. Behind a slash it begins with a blank, since a
slash before a comment would be the beginning of another one. -/
def Separates (g : Gap) (k : Kind) : Prop :=
  ∃ s rest, g.spacers = s :: rest ∧ (k = .symbol '/' → ∃ c, s = .blank c)

end Gap

/-- Tokens with the space behind each: it separates each from the next, and only the last one may be
missing. -/
def Separated : List (Kind × Gap) → Prop
  | [] => True
  | (k, gap) :: items => (gap.Separates k ∨ gap.spacers = [] ∧ items = []) ∧ Separated items

/-- The text that spells tokens with space before the first and behind each. -/
def sourceText (lead : Gap) (items : List (Kind × Gap)) : List Char :=
  lead.text ++ items.flatMap fun (k, gap) => k.spelling ++ gap.text

/-- The tokens in their places. -/
def placed (pos : Position) : List (Kind × Gap) → List Token
  | [] => []
  | (k, gap) :: items => ⟨k, pos⟩ :: placed (pos.after (k.spelling ++ gap.text)) items

end Token

end JackCompiler
