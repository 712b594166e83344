/-!
# Decimal numerals

Reading a numeral of ASCII digits. Leading zeros are allowed, and there is no bound on the length;
the bounds of a machine word and of an integer constant belong to those who ask.
-/

namespace JackCompiler

namespace Text

/-- The value of a numeral: one or more ASCII digits and nothing else. -/
def numeral? (cs : List Char) : Option Nat :=
  if cs.isEmpty || !cs.all Char.isDigit then none else some (Nat.ofDigitChars 10 cs 0)

/-- The machine word that a numeral stands for, if it fits in sixteen bits. One `+` may stand in
front of the digits. -/
def word? (cs : List Char) : Option UInt16 :=
  let digits := if cs.head? = some '+' then cs.tail else cs
  (numeral? digits).bind fun n => if n < UInt16.size then some (UInt16.ofNat n) else none

/-- A numeral has digits and nothing else. -/
theorem numeral?_eq_some {cs : List Char} {n : Nat} :
    numeral? cs = some n ↔ cs ≠ [] ∧ (∀ c ∈ cs, c.isDigit) ∧ Nat.ofDigitChars 10 cs 0 = n := by
  unfold numeral?
  split
  · next h =>
    -- there is no digit, or a character that is none
    simp only [Bool.or_eq_true, List.isEmpty_iff, Bool.not_eq_true', List.all_eq_false] at h
    refine ⟨fun hn => (nomatch hn), fun ⟨hne, hdigits, _⟩ => ?_⟩
    rcases h with rfl | ⟨c, hc, hdigit⟩
    · exact absurd rfl hne
    · exact absurd (hdigits c hc) hdigit
  · next h =>
    simp only [Bool.or_eq_true, List.isEmpty_iff, Bool.not_eq_true', not_or,
      Bool.not_eq_false, List.all_eq_true] at h
    rw [Option.some_inj]
    exact ⟨fun hn => ⟨h.1, h.2, hn⟩, fun hn => hn.2.2⟩

/-- **A number is read back from its decimal digits.** -/
@[simp]
theorem numeral?_toDigits (n : Nat) : numeral? (Nat.toDigits 10 n) = some n := by
  have digits : (Nat.toDigits 10 n).all Char.isDigit := by
    simp only [List.all_eq_true]
    exact fun _ h => Nat.isDigit_of_mem_toDigits (by decide) (by decide) h
  simp [numeral?, digits, Nat.toDigits_ne_nil]

end Text

end JackCompiler
