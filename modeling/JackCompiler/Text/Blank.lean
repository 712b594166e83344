/-!
# White space

Which characters separate words, and the two operations that only depend on that: cutting the
white space off both ends of a text, and splitting a text into its fields.
-/

namespace JackCompiler

namespace Text

/-- The ranges of code points, both ends included, with the Unicode property `White_Space`. -/
def blankRanges : List (Nat × Nat) :=
  [(0x09, 0x0D), (0x20, 0x20), (0x85, 0x85), (0xA0, 0xA0), (0x1680, 0x1680), (0x2000, 0x200A),
    (0x2028, 0x2029), (0x202F, 0x202F), (0x205F, 0x205F), (0x3000, 0x3000)]

/-- A blank is a character of one of the white-space ranges. -/
def isBlank (c : Char) : Bool :=
  blankRanges.any fun (first, last) => first ≤ c.toNat && c.toNat ≤ last

/-- The text without the blanks at its two ends. -/
def trim (cs : List Char) : List Char :=
  ((cs.dropWhile isBlank).reverse.dropWhile isBlank).reverse

/-- The maximal runs of characters that are not blank, in order. -/
def fields (cs : List Char) : List (List Char) :=
  (cs.splitOnP isBlank).filter fun field => !field.isEmpty

/-- No field is empty. -/
theorem ne_nil_of_mem_fields {cs field : List Char} (h : field ∈ fields cs) : field ≠ [] := by
  rintro rfl
  simp [fields] at h

end Text

end JackCompiler
