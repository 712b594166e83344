import JackCompiler.Proofs.Lexing.Steps
import JackCompiler.Text.Style
/-!
# Styled text without its styles

What remains of a text when the escape sequences are taken out that switch a terminal's rendition.
Text without an escape character remains as it is, and nothing remains of a switch (`Shows`). A
switch does not reach over the end of a line, so what remains of a line does not depend on the next.
-/

namespace JackCompiler

namespace Text

/-- The character with which every switch begins. -/
def escapeChar : Char := '\x1b'

/-- A character of the parameters of a switch. -/
def isParameter (c : Char) : Bool :=
  c.isDigit || c == ';'

/-- What stands behind the switch with which the text begins, if it begins with one: the escape
character, a bracket, parameters and the letter `m`. -/
def afterSwitch? : List Char → Option (List Char)
  | '\x1b' :: '[' :: cs =>
    match cs.dropWhile isParameter with
    | 'm' :: rest => some rest
    | _ => none
  | _ => none

variable {c : Char} {a b cs rest w : List Char}

/-- A switch has a known shape, whatever its parameters are. -/
theorem exists_of_afterSwitch? (h : afterSwitch? cs = some rest) :
    ∃ parameters, cs = '\x1b' :: '[' :: (parameters ++ 'm' :: rest) := by
  unfold afterSwitch? at h
  split at h
  · next cs =>
    split at h
    · next hdrop =>
      obtain rfl := Option.some.inj h
      refine ⟨cs.takeWhile isParameter, ?_⟩
      rw [← hdrop, List.takeWhile_append_dropWhile]
    · cases h
  · cases h

/-- A switch is not empty. -/
theorem length_lt_of_afterSwitch? (h : afterSwitch? cs = some rest) : rest.length < cs.length := by
  obtain ⟨parameters, rfl⟩ := exists_of_afterSwitch? h
  simp only [List.length_cons, List.length_append]
  omega

/-- What stands behind a switch is the end of the text. -/
theorem suffix_of_afterSwitch? (h : afterSwitch? cs = some rest) : rest <:+ cs := by
  obtain ⟨parameters, rfl⟩ := exists_of_afterSwitch? h
  exact ⟨'\x1b' :: '[' :: (parameters ++ ['m']), by simp⟩

/-- The text without its switches. -/
def plain (cs : List Char) : List Char :=
  match h : afterSwitch? cs with
  | some rest =>
    have := length_lt_of_afterSwitch? h
    plain rest
  | none =>
    match cs with
    | [] => []
    | c :: cs => c :: plain cs
termination_by cs.length

/-- A switch is taken out. -/
theorem plain_of_afterSwitch? (h : afterSwitch? cs = some rest) : plain cs = plain rest := by
  rw [plain]
  split <;> simp_all

/-- A character that begins no switch remains. -/
theorem plain_cons (h : afterSwitch? (c :: cs) = none) : plain (c :: cs) = c :: plain cs := by
  rw [plain]
  split <;> simp_all

theorem plain_nil : plain [] = [] := by
  rw [plain]
  rfl

/-- Only the escape character begins a switch. -/
theorem afterSwitch?_eq_none (hc : c ≠ escapeChar) : afterSwitch? (c :: cs) = none := by
  unfold afterSwitch?
  split
  · next h =>
    obtain ⟨rfl, -⟩ := List.cons.inj h
    exact absurd rfl hc
  · rfl

/-- A switch ends before the end of its line. -/
theorem afterSwitch?_append_newline (w cs : List Char) :
    afterSwitch? (w ++ '\n' :: cs) = (afterSwitch? w).map (· ++ '\n' :: cs) := by
  -- A line feed is no parameter, so the parameters end before it.
  have hdrop : ∀ v : List Char,
      (v ++ '\n' :: cs).dropWhile isParameter = v.dropWhile isParameter ++ '\n' :: cs := by
    intro v
    rw [List.dropWhile_append]
    split
    · next h =>
      rw [List.isEmpty_iff.1 h]
      rfl
    · rfl
  cases w with
  | nil => exact afterSwitch?_eq_none (by decide)
  | cons c w =>
    by_cases hc : c = escapeChar
    · subst hc
      cases w with
      | nil => rfl
      | cons d w =>
        by_cases hd : d = '['
        · subst hd
          -- Nor is it the letter that closes a switch.
          simp only [escapeChar, List.cons_append, afterSwitch?, hdrop]
          cases w.dropWhile isParameter with
          | nil => rfl
          | cons x v =>
            by_cases hx : x = 'm'
            · subst hx
              rfl
            · simp [hx]
        · simp [afterSwitch?, hd]
    · rw [List.cons_append, afterSwitch?_eq_none hc, afterSwitch?_eq_none hc]
      rfl

/-- Whatever follows it, this remains of the styled text. -/
def Shows (styled shown : List Char) : Prop :=
  ∀ rest, plain (styled ++ rest) = shown ++ plain rest

/-- What a text shows is what remains of it. -/
theorem Shows.plain_eq (h : Shows a b) : plain a = b := by
  simpa [plain_nil] using h []

/-- Texts side by side show what each of them shows. -/
theorem Shows.append {a' b' : List Char} (h : Shows a b) (h' : Shows a' b') :
    Shows (a ++ a') (b ++ b') := by
  intro rest
  rw [List.append_assoc, h, h', List.append_assoc]

/-- A text without the escape character shows itself. -/
theorem shows_self (h : escapeChar ∉ w) : Shows w w := by
  intro rest
  induction w with
  | nil => rfl
  | cons c w ih =>
    obtain ⟨hc, hw⟩ := List.ne_and_not_mem_of_not_mem_cons h
    rw [List.cons_append, plain_cons (afterSwitch?_eq_none hc.symm), ih hw, List.cons_append]

/-- Nothing remains of a switch. -/
theorem shows_escape (s : Style) : Shows s.escape.toList [] := by
  intro rest
  have hswitch : afterSwitch? (s.escape.toList ++ rest) = some rest := by
    cases s <;> rfl
  exact plain_of_afterSwitch? hswitch

/-- Colour does not change what a text shows. -/
theorem shows_coloured {s : String} (colour : Style) (h : Shows s.toList w) :
    Shows (coloured colour s).toList w := by
  have hall := ((shows_escape colour).append h).append (shows_escape .plainColour)
  simpa [coloured] using hall

/-- Emphasis does not change what a text shows. -/
theorem shows_emphasised {s : String} (colour : Style) (h : Shows s.toList w) :
    Shows (emphasised colour s).toList w := by
  have hon := (shows_escape colour).append (shows_escape .bold)
  have hoff := (shows_escape .plainColour).append (shows_escape .plainWeight)
  simpa [emphasised] using (hon.append h).append hoff

/-- **What remains of a line does not depend on what follows it.** -/
theorem shows_line (w : List Char) : Shows (w ++ ['\n']) (plain w ++ ['\n']) := by
  intro rest
  simp only [List.append_assoc, List.singleton_append]
  -- At each step the line begins with a switch exactly if it does with the rest behind it.
  fun_induction plain w with
  | case1 cs next h _ ih =>
    rw [← ih]
    refine plain_of_afterSwitch? ?_
    rw [afterSwitch?_append_newline, h]
    rfl
  | case2 h => exact plain_cons (afterSwitch?_eq_none (by decide))
  | case3 c cs h ih =>
    rw [List.cons_append, plain_cons, ih, List.cons_append]
    rw [← List.cons_append, afterSwitch?_append_newline, h]
    rfl

/-- Nothing is added. -/
theorem plain_sublist (cs : List Char) : (plain cs).Sublist cs := by
  fun_induction plain cs with
  | case1 cs rest h _ ih => exact ih.trans (suffix_of_afterSwitch? h).sublist
  | case2 h => exact List.Sublist.refl _
  | case3 c cs h ih => exact ih.cons_cons c

/-! ## Texts for one line -/

/-- A text for one line of a terminal: its only blanks are spaces, and it switches nothing. -/
def Printed (w : List Char) : Prop :=
  ∀ c ∈ w, c ≠ escapeChar ∧ (isBlank c → c = ' ')

theorem Printed.append (ha : Printed a) (hb : Printed b) : Printed (a ++ b) :=
  List.forall_mem_append.2 ⟨ha, hb⟩

/-- What is printed stands on one line, and no carriage return ends it. -/
theorem Printed.oneLine (h : Printed w) : '\n' ∉ w ∧ w.getLast? ≠ some '\r' := by
  constructor
  · intro hn
    cases (h _ hn).2 (by decide)
  · intro hr
    cases (h _ (List.mem_of_getLast? hr)).2 (by decide)

/-- Whether a text is printed can be checked character by character. -/
theorem Printed.of_all (h : w.all fun c => c != escapeChar && (!isBlank c || c == ' ')) :
    Printed w := by
  intro c hc
  have hchar := List.all_eq_true.1 h c hc
  simp only [Bool.and_eq_true, bne_iff_ne, ne_eq, Bool.or_eq_true, Bool.not_eq_true',
    beq_iff_eq] at hchar
  refine ⟨hchar.1, fun hb => hchar.2.resolve_left ?_⟩
  rw [hb]
  decide

theorem printed_spaces (n : Nat) : Printed (spaces n).toList := by
  intro c hc
  obtain rfl : c = ' ' := by
    have hmem : c ∈ List.replicate n ' ' := by simpa [spaces] using hc
    exact List.eq_of_mem_replicate hmem
  exact ⟨by decide, fun _ => rfl⟩

/-- Padding adds only spaces. -/
theorem printed_padRight {s : String} (width : Nat) (h : Printed s.toList) :
    Printed (padRight width s).toList := by
  rw [padRight, String.toList_append]
  exact h.append (printed_spaces _)

/-- A number is printed in digits. -/
theorem printed_repr (n : Nat) : Printed n.repr.toList := by
  intro c hc
  have hdigit : c.isDigit := by
    rw [Nat.toList_repr] at hc
    exact Nat.isDigit_of_mem_toDigits (by decide) (by decide) hc
  constructor
  · rintro rfl
    cases hdigit
  · intro hb
    rw [Token.not_isBlank_of_isWordChar (Token.isWordChar_of_isDigit hdigit)] at hb
    cases hb

/-- The styled text shows a text for one line. -/
structure Displays (styled shown : List Char) : Prop where
  shows : Shows styled shown
  printed : Printed shown

/-- A printed text displays itself. -/
theorem Printed.displays (h : Printed w) : Displays w w :=
  ⟨shows_self fun hesc => (h _ hesc).1 rfl, h⟩

/-- A switch displays nothing. -/
theorem displays_escape (s : Style) : Displays s.escape.toList [] :=
  ⟨shows_escape s, by simp [Printed]⟩

/-- Texts side by side display what each of them displays. -/
theorem Displays.append {a' b' : List Char} (h : Displays a b) (h' : Displays a' b') :
    Displays (a ++ a') (b ++ b') :=
  ⟨h.shows.append h'.shows, h.printed.append h'.printed⟩

theorem Displays.coloured {s : String} (colour : Style) (h : Displays s.toList w) :
    Displays (coloured colour s).toList w :=
  ⟨shows_coloured colour h.shows, h.printed⟩

theorem Displays.emphasised {s : String} (colour : Style) (h : Displays s.toList w) :
    Displays (emphasised colour s).toList w :=
  ⟨shows_emphasised colour h.shows, h.printed⟩

end Text

end JackCompiler
