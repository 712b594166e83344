import JackCompiler.Token.Basic
/-!
# How tokens are written

The characters that spell a token, and which tokens a source text can spell at all.
-/

namespace JackCompiler

namespace Token

/-- A character inside the quotes of a string constant. A backslash goes before a quote and before
another backslash. -/
def quoted (c : Char) : List Char :=
  if c = '"' ∨ c = '\\' then ['\\', c] else [c]

/-- The characters that spell a token. -/
def Kind.spelling : Kind → List Char
  | keyword k => k.word.toList
  | symbol c => [c]
  | integer n => Nat.toDigits 10 n.toNat
  | string s => '"' :: (s.toList.flatMap quoted ++ ['"'])
  | name s => s.toList

/-- A word is a name if it is not a keyword and does not begin with a digit. -/
structure IsName (s : String) : Prop where
  ne_nil : s.toList ≠ []
  wordChars : ∀ c ∈ s.toList, isWordChar c
  noDigit : ¬ s.toList.head?.any Char.isDigit
  noKeyword : Keyword.ofWord? s = none

/-- A text is a string constant if it is on one line and keeps to the limits on its length and on
the codes of its characters. -/
structure IsString (s : String) : Prop where
  length_le : s.length ≤ limit
  code_le : ∀ c ∈ s.toList, c.toNat ≤ limit
  oneLine : '\n' ∉ s.toList

/-- The tokens that a source text can spell. -/
def Kind.WellFormed : Kind → Prop
  | keyword _ => True
  | symbol c => isSymbol c
  | integer n => n.toNat ≤ limit
  | string s => IsString s
  | name s => IsName s

instance (s : String) : Decidable (IsName s) :=
  decidable_of_iff
    (s.toList ≠ [] ∧ s.toList.all isWordChar ∧ ¬ s.toList.head?.any Char.isDigit ∧
      Keyword.ofWord? s = none)
    ⟨fun ⟨hnil, hall, hdigit, hkeyword⟩ => ⟨hnil, List.all_eq_true.1 hall, hdigit, hkeyword⟩,
      fun ⟨hnil, hall, hdigit, hkeyword⟩ => ⟨hnil, List.all_eq_true.2 hall, hdigit, hkeyword⟩⟩

instance (s : String) : Decidable (IsString s) :=
  decidable_of_iff
    (s.length ≤ limit ∧ s.toList.all (fun c => c.toNat ≤ limit) ∧ '\n' ∉ s.toList)
    ⟨fun ⟨hlength, hall, hline⟩ => ⟨hlength, by simpa using hall, hline⟩,
      fun ⟨hlength, hall, hline⟩ => ⟨hlength, by simpa using hall, hline⟩⟩

instance : DecidablePred Kind.WellFormed
  | .keyword _ => inferInstanceAs (Decidable True)
  | .symbol _ => inferInstanceAs (Decidable (_ = _))
  | .integer _ => inferInstanceAs (Decidable (_ ≤ _))
  | .string s => inferInstanceAs (Decidable (IsString s))
  | .name s => inferInstanceAs (Decidable (IsName s))

end Token

end JackCompiler
