import JackCompiler.Proofs.Lexing.OneLine
/-!
# The scan of a line makes progress

A line is scanned in rounds. A round leaves the block comment in which the scan stands, if it stands
in one, and then skips a blank, enters a comment or reads one token behind it. Every round but the
last takes at least one character off the line and reads at most one token, so a line needs no more
rounds than it has characters, and one to see that it is at its end, and it has no more tokens than
characters. The scan in rounds is the scan in passes (`run_eq_round`).
-/

namespace JackCompiler

namespace Token

/-- How many tokens were read and how many characters are left. -/
def Scanner.load (s : Scanner) : Nat :=
  s.tokens.size + s.rest.length

namespace Pass

/-- A pass from `s` on makes progress: it takes a character off the line unless it is the last, and
there are characters for the tokens that it reads. -/
def Progresses (s : Scanner) : Pass → Prop
  | more t => t.rest.length < s.rest.length ∧ t.load ≤ s.load
  | done t => t.load ≤ s.load
  | failed t _ => t.load ≤ s.load

/-- A pass from `s` on reads at most one token, and none if it is the last. -/
def ReadsAtMostOne (s : Scanner) : Pass → Prop
  | more t => t.tokens.size ≤ s.tokens.size + 1
  | done t => t.tokens = s.tokens ∧ t.rest.length ≤ s.rest.length
  | failed t _ => t = s

/-- What the scan of the line comes to behind the pass. -/
def lineScan (row : Nat) : Pass → LineScan
  | more t => t.run row
  | done t => { tokens := t.tokens, result := .ok t.comment }
  | failed t e => { tokens := t.tokens, result := .error e }

theorem Progresses.trans {s t : Scanner} {p : Pass} (hs : (more t).Progresses s)
    (ht : p.Progresses t) : p.Progresses s := by
  obtain ⟨hlength, hload⟩ := hs
  cases p with
  | more u => exact ⟨Nat.lt_trans ht.1 hlength, Nat.le_trans ht.2 hload⟩
  | done u => exact Nat.le_trans ht hload
  | failed u e => exact Nat.le_trans ht hload

end Pass

namespace Scanner

variable {row : Nat} {s t : Scanner}

/-! ## Words -/

/-- The characters up to the first that stands in no word. -/
def lexeme (s : Scanner) : List Char :=
  s.rest.takeWhile isWordChar

/-- The scan stands before a word: outside comments, before a character that is neither skipped nor
read in another way. Comments begin with a symbol. -/
def AtWord (s : Scanner) : Prop :=
  s.comment = none ∧
    ∃ c rest, s.rest = c :: rest ∧ Text.isBlank c = false ∧ isSymbol c = false ∧ c ≠ '"'

/-- The pass that reads the word before which the scan stands. -/
def readWord (row : Nat) (s : Scanner) : Pass :=
  match ofWord ⟨row, s.col⟩ s.lexeme with
  | .ok kind =>
    .more (s.emit ⟨kind, ⟨row, s.col⟩⟩ (s.rest.dropWhile isWordChar) (s.col + columns s.lexeme))
  | .error e => .failed s e

/-- **A word that is read is not empty**: the characters at which a word stops are read in another
way. -/
theorem lexeme_ne_nil (h : s.AtWord) : s.lexeme ≠ [] := by
  obtain ⟨-, c, rest, hrest, hblank, hsymbol, hquote⟩ := h
  have hword : isWordChar c := by simp [isWordChar, hblank, hsymbol, hquote]
  simp [lexeme, hrest, hword]

theorem pass_of_atWord (h : s.AtWord) : s.pass row = s.readWord row := by
  obtain ⟨hcomment, c, rest, hrest, hblank, hsymbol, hquote⟩ := h
  obtain ⟨_, col, _, tokens⟩ := s
  cases hcomment
  cases hrest
  -- A slash is a symbol, so no comment begins here.
  have hslash : c = '/' → rest.head? ≠ some '/' ∧ rest.head? ≠ some '*' := by
    rintro rfl
    cases hsymbol
  rw [pass_cons hquote hslash, hblank, hsymbol]
  rfl

/-! ## Passes -/

theorem readsAtMostOne_pass (row : Nat) (s : Scanner) : (s.pass row).ReadsAtMostOne s := by
  obtain ⟨rest, col, comment, tokens⟩ := s
  unfold pass
  dsimp only
  split
  · split
    · exact Nat.le_succ _
    · exact ⟨rfl, Nat.zero_le _⟩
  · split
    · exact ⟨rfl, Nat.le_refl _⟩
    · exact ⟨rfl, Nat.zero_le _⟩
    · exact Nat.le_succ _
    · split
      · simp [Pass.ReadsAtMostOne, emit]
      · rfl
    · split
      · exact Nat.le_succ _
      · split
        · simp [Pass.ReadsAtMostOne, emit]
        · split
          · simp [Pass.ReadsAtMostOne, emit]
          · rfl

/-- **Every pass makes progress.** -/
theorem progresses_pass (row : Nat) (s : Scanner) : (s.pass row).Progresses s := by
  -- A token more is paid for by a character less.
  have hread := readsAtMostOne_pass row s
  cases h : s.pass row with
  | more t =>
    have hlength : t.rest.length < s.rest.length := length_lt_of_pass h
    have hsize : t.tokens.size ≤ s.tokens.size + 1 := by
      rwa [h] at hread
    refine ⟨hlength, ?_⟩
    unfold load
    omega
  | done t =>
    rw [h] at hread
    obtain ⟨htokens, hlength⟩ := hread
    change t.tokens.size + t.rest.length ≤ s.tokens.size + s.rest.length
    rw [htokens]
    omega
  | failed t e =>
    rw [h] at hread
    obtain rfl : t = s := hread
    exact Nat.le_refl _

theorem run_eq_pass (row : Nat) (s : Scanner) : s.run row = (s.pass row).lineScan row := by
  cases h : s.pass row with
  | more t => exact run_of_more h
  | done t => exact run_of_done h
  | failed t e => exact run_of_failed h

/-! ## Rounds -/

/-- One round of the scan: behind the comment in which it stands, if it stands in one. -/
def round (row : Nat) (s : Scanner) : Pass :=
  match s.comment, s.pass row with
  | some _, .more t => t.pass row
  | _, last => last

/-- The scan in at most so many rounds. There is no answer if these are not enough. -/
def runWithin (row : Nat) : Nat → Scanner → Option LineScan
  | 0, _ => none
  | n + 1, s =>
    match s.round row with
    | .more t => runWithin row n t
    | .done t => some { tokens := t.tokens, result := .ok t.comment }
    | .failed t e => some { tokens := t.tokens, result := .error e }

/-- A round is one pass, or two of which the first leaves a comment. -/
theorem round_cases (row : Nat) (s : Scanner) :
    s.round row = s.pass row ∨ ∃ t, s.pass row = .more t ∧ s.round row = t.pass row := by
  unfold round
  cases s.comment with
  | none => exact .inl rfl
  | some p =>
    cases h : s.pass row with
    | more t => exact .inr ⟨t, rfl, rfl⟩
    | done t => exact .inl rfl
    | failed t e => exact .inl rfl

/-- **Every round makes progress.** -/
theorem progresses_round (row : Nat) (s : Scanner) : (s.round row).Progresses s := by
  rcases round_cases row s with h | ⟨t, hs, h⟩
  · rw [h]
    exact progresses_pass row s
  · have hfirst := progresses_pass row s
    rw [hs] at hfirst
    rw [h]
    exact hfirst.trans (progresses_pass row t)

/-- **The scan in rounds is the scan in passes.** -/
theorem run_eq_round (row : Nat) (s : Scanner) : s.run row = (s.round row).lineScan row := by
  rcases round_cases row s with h | ⟨t, hs, h⟩
  · rw [h, run_eq_pass]
  · rw [h, run_of_more hs, run_eq_pass]

/-- As many rounds as there are characters are enough, and one more. -/
theorem runWithin_eq_run {n : Nat} (h : s.rest.length < n) :
    s.runWithin row n = some (s.run row) := by
  -- On the number of rounds: each but the last leaves fewer characters than before.
  induction n generalizing s with
  | zero => omega
  | succ n ih =>
    have hprogress := progresses_round row s
    rw [runWithin, run_eq_round]
    cases hround : s.round row with
    | more t =>
      rw [hround] at hprogress
      exact ih (Nat.lt_of_lt_of_le hprogress.1 (Nat.le_of_lt_succ h))
    | done t => rfl
    | failed t e => rfl

/-- For every token that is read there was a character. -/
theorem size_tokens_runWithin {n : Nat} {found : LineScan} (h : s.runWithin row n = some found) :
    found.tokens.size ≤ s.load := by
  induction n generalizing s with
  | zero => cases h
  | succ n ih =>
    have hprogress := progresses_round row s
    rw [runWithin] at h
    cases hround : s.round row with
    | more t =>
      rw [hround] at h hprogress
      exact Nat.le_trans (ih h) hprogress.2
    | done t =>
      rw [hround] at h hprogress
      obtain rfl := Option.some.inj h
      exact Nat.le_trans (Nat.le_add_right _ _) hprogress
    | failed t e =>
      rw [hround] at h hprogress
      obtain rfl := Option.some.inj h
      exact Nat.le_trans (Nat.le_add_right _ _) hprogress

end Scanner

/-- The scan of a line in at most so many rounds. No round is needed to see that a line inside a
comment does not begin with `*`. -/
def scanLineWithin (n row : Nat) (comment : Option Position) (line : List Char) :
    Option LineScan :=
  if comment.isSome && (line.dropWhile Text.isBlank).head? != some '*' then
    some { tokens := #[]
           result := .error (.malformedComment ⟨row, columns (line.takeWhile Text.isBlank)⟩) }
  else
    Scanner.runWithin row n { rest := line, col := 0, comment, tokens := #[] }

/-- **The scan of a line always makes progress.** Wherever it stands, a round takes a character off
the rest of the line, or it is the last, with or without an error; a word that is read is not empty.
So the scan of a line ends after at most as many rounds as the line has characters, and one, and it
reads at most as many tokens as the line has characters, also if it fails. -/
theorem scanLine_progresses (row : Nat) (comment : Option Position) (line : List Char) :
    (∀ s : Scanner, (s.round row).Progresses s) ∧
      (∀ s : Scanner, s.AtWord → s.lexeme ≠ [] ∧ s.pass row = s.readWord row) ∧
      scanLineWithin (line.length + 1) row comment line = some (scanLine row comment line) ∧
      (scanLine row comment line).tokens.size ≤ line.length := by
  refine ⟨Scanner.progresses_round row,
    fun s hs => ⟨Scanner.lexeme_ne_nil hs, Scanner.pass_of_atWord hs⟩, ?_⟩
  unfold scanLineWithin scanLine
  split
  · exact ⟨rfl, Nat.zero_le _⟩
  · have hrun : Scanner.runWithin row (line.length + 1) ⟨line, 0, comment, #[]⟩
        = some (Scanner.run row ⟨line, 0, comment, #[]⟩) :=
      Scanner.runWithin_eq_run (Nat.lt_succ_self line.length)
    have hsize := Scanner.size_tokens_runWithin hrun
    exact ⟨hrun, by simpa [Scanner.load] using hsize⟩

/-- The end of a comment, two tokens and a faulty number with nothing between them. -/
def tightLine : List Char :=
  "*/x=9\u00E9\n".toList

/-- The scan of that line before its number. -/
def tightLineAtNumber : Scanner :=
  { rest := "9\u00E9\n".toList, col := 4, comment := none,
    tokens := #[⟨.name "x", ⟨7, 2⟩⟩, ⟨.symbol '=', ⟨7, 3⟩⟩] }

theorem tightLine_progresses :
    tightLineAtNumber.AtWord ∧
      (tightLineAtNumber.lexeme ≠ [] ∧
        tightLineAtNumber.pass 7 = tightLineAtNumber.readWord 7) ∧
      scanLineWithin 8 7 (some ⟨5, 1⟩) tightLine = some (scanLine 7 (some ⟨5, 1⟩) tightLine) ∧
      (scanLine 7 (some ⟨5, 1⟩) tightLine).tokens.size ≤ 7 := by
  have hword : tightLineAtNumber.AtWord :=
    ⟨rfl, '9', "\u00E9\n".toList, by decide, by decide, by decide, by decide⟩
  obtain ⟨-, hwords, hends, htokens⟩ := scanLine_progresses 7 (some ⟨5, 1⟩) tightLine
  exact ⟨hword, hwords tightLineAtNumber hword, hends, htokens⟩

end Token

end JackCompiler
