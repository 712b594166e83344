import JackCompiler.Token.Lexer
/-!
# The scan of one line

What a pass comes to decides what the scan of the line comes to. A pass reads the line and the
column where it stands, never the tokens before it, and it writes the number of the line into the
positions it makes. So a line is scanned alike on another row and behind other tokens: every step of
the scan commutes with moving its positions down and with putting tokens in front
(`Scanner.run_below`).
-/

namespace JackCompiler

/-! ## Moving down -/

/-- The position `k` lines further down. -/
def Position.down (k : Nat) (p : Position) : Position :=
  ⟨p.row + k, p.col⟩

/-- The token `k` lines further down. -/
def Token.down (k : Nat) (t : Token) : Token :=
  { t with pos := t.pos.down k }

/-- The error `k` lines further down. -/
def LexicalError.down (k : Nat) : LexicalError → LexicalError
  | unterminatedString pos => unterminatedString (pos.down k)
  | malformedComment pos => malformedComment (pos.down k)
  | unterminatedComment pos => unterminatedComment (pos.down k)
  | integerOverflow pos lexeme => integerOverflow (pos.down k) lexeme
  | invalidInteger pos lexeme => invalidInteger (pos.down k) lexeme
  | invalidCharacter pos c => invalidCharacter (pos.down k) c
  | stringTooLong pos length => stringTooLong (pos.down k) length

/-- The result of a scan that is moved down, where `f` moves its value. -/
def LexicalError.downResult {α β : Type} (k : Nat) (f : α → β) :
    Except LexicalError α → Except LexicalError β
  | .ok a => .ok (f a)
  | .error e => .error (e.down k)

@[simp] theorem Position.down_zero : Position.down 0 = id := rfl

@[simp] theorem Token.down_zero : Token.down 0 = id := rfl

@[simp] theorem LexicalError.downResult_zero {α : Type} (r : Except LexicalError α) :
    downResult 0 id r = r := by
  cases r with
  | ok a => rfl
  | error e => cases e <;> rfl

namespace Token

open LexicalError (downResult)

/-! ## Passes -/

namespace Scanner

variable {row : Nat} {s t : Scanner}

theorem run_of_more (h : s.pass row = .more t) : s.run row = t.run row := by
  rw [run]
  split <;> simp_all

theorem run_of_done (h : s.pass row = .done t) :
    s.run row = { tokens := t.tokens, result := .ok t.comment } := by
  rw [run]
  split <;> simp_all

theorem run_of_failed {e : LexicalError} (h : s.pass row = .failed t e) :
    s.run row = { tokens := t.tokens, result := .error e } := by
  rw [run]
  split <;> simp_all

/-- At the end of the line the scan is over. -/
theorem run_of_rest_eq_nil (h : s.rest = []) :
    s.run row = { tokens := s.tokens, result := .ok s.comment } := by
  cases hc : s.comment with
  | none =>
    rw [run_of_done (t := s), hc]
    simp [pass, hc, h]
  | some p =>
    rw [run_of_done (t := { s with rest := [] }), hc]
    simp [pass, hc, h, afterComment]

/-- Inside a comment, the scan only looks for its end. -/
theorem run_inComment {rest rest' : List Char} {col col' : Nat} {p : Position}
    {tokens : Array Token} (h : afterComment col rest = afterComment col' rest') :
    run row { rest, col, comment := some p, tokens }
      = run row { rest := rest', col := col', comment := some p, tokens } := by
  cases hc : afterComment col' rest' with
  | none =>
    have hpass : ∀ rest col, afterComment col rest = none →
        pass row { rest, col, comment := some p, tokens }
          = .done { rest := [], col, comment := some p, tokens } := by
      intro rest col hnone
      simp [pass, hnone]
    rw [run_of_done (hpass rest col (h.trans hc)), run_of_done (hpass rest' col' hc)]
  | some found =>
    have hpass : ∀ rest col, afterComment col rest = some found →
        pass row { rest, col, comment := some p, tokens }
          = .more { rest := found.1, col := found.2, comment := none, tokens } := by
      intro rest col hsome
      simp [pass, hsome]
    rw [run_of_more (hpass rest col (h.trans hc)), run_of_more (hpass rest' col' hc)]

/-- Outside comments, a character that begins neither a comment nor a string constant is skipped or
begins a token. -/
theorem pass_cons {c : Char} {rest : List Char} {col : Nat} {tokens : Array Token}
    (hquote : c ≠ '"') (hslash : c = '/' → rest.head? ≠ some '/' ∧ rest.head? ≠ some '*') :
    pass row { rest := c :: rest, col, comment := none, tokens } =
      if Text.isBlank c then
        .more { rest, col := col + c.utf8Size, comment := none, tokens }
      else if isSymbol c then
        .more { rest, col := col + 1, comment := none,
                tokens := tokens.push ⟨.symbol c, ⟨row, col⟩⟩ }
      else
        match ofWord ⟨row, col⟩ ((c :: rest).takeWhile isWordChar) with
        | .ok kind => .more { rest := (c :: rest).dropWhile isWordChar,
                              col := col + columns ((c :: rest).takeWhile isWordChar),
                              comment := none, tokens := tokens.push ⟨kind, ⟨row, col⟩⟩ }
        | .error e => .failed { rest := c :: rest, col, comment := none, tokens } e := by
  unfold pass
  dsimp only
  split
  · next h => cases h
  · next h =>
    obtain ⟨rfl, rfl⟩ := List.cons.inj h
    exact absurd rfl (hslash rfl).1
  · next h =>
    obtain ⟨rfl, rfl⟩ := List.cons.inj h
    exact absurd rfl (hslash rfl).2
  · next h =>
    obtain ⟨rfl, -⟩ := List.cons.inj h
    exact absurd rfl hquote
  · next h =>
    obtain ⟨rfl, rfl⟩ := List.cons.inj h
    rfl

end Scanner

/-! ## Further down, behind other tokens -/

/-- The scan of a line that stands `k` lines further down, behind the given tokens. -/
def Scanner.below (k : Nat) (before : Array Token) (s : Scanner) : Scanner where
  rest := s.rest
  col := s.col
  comment := s.comment.map (Position.down k)
  tokens := before ++ s.tokens.map (Token.down k)

/-- The outcome of a pass over a line that stands further down. -/
def Pass.below (k : Nat) (before : Array Token) : Pass → Pass
  | more s => more (s.below k before)
  | done s => done (s.below k before)
  | failed s e => failed (s.below k before) (e.down k)

/-- What a scan finds on a line that stands further down. -/
def LineScan.below (k : Nat) (before : Array Token) (found : LineScan) : LineScan where
  tokens := before ++ found.tokens.map (Token.down k)
  result := downResult k (Option.map (Position.down k)) found.result

/-- A string constant is read alike further down. -/
theorem readString_down (k : Nat) (start : Position) (col : Nat) (read cs : List Char) :
    readString (start.down k) col read cs = downResult k id (readString start col read cs) := by
  fun_induction readString start col read cs with
  | case1 => rfl
  | case2 col read rest hlong =>
    rw [readString, if_pos hlong]
    rfl
  | case3 col read rest hshort =>
    rw [readString, if_neg hshort]
    rfl
  | case4 col read rest ih => rw [readString, ih]
  | case5 col read rest ih => rw [readString, ih]
  | case6 col read c rest hquote hescaped hslash hcode =>
    rw [readString, if_pos hcode]
    · rfl
    · exact hquote
    · exact hescaped
    · exact hslash
  | case7 col read c rest hquote hescaped hslash hcode ih =>
    rw [readString, if_neg hcode, ih]
    · exact hquote
    · exact hescaped
    · exact hslash

/-- A word is read alike further down. -/
theorem ofWord_down (k : Nat) (pos : Position) (word : List Char) :
    ofWord (pos.down k) word = downResult k id (ofWord pos word) := by
  unfold ofWord
  dsimp only
  by_cases hdigit : word.head?.any Char.isDigit
  · rw [if_pos hdigit, if_pos hdigit]
    cases Text.numeral? word with
    | none => rfl
    | some n =>
      dsimp only
      by_cases hn : limit < n
      · rw [if_pos hn, if_pos hn]
        rfl
      · rw [if_neg hn, if_neg hn]
        rfl
  · rw [if_neg hdigit, if_neg hdigit]
    cases Keyword.ofWord? (String.ofList word) <;> rfl

namespace Scanner

/-- **A pass does the same on a line further down**, whatever tokens were read before. -/
theorem pass_below (k row : Nat) (before : Array Token) (s : Scanner) :
    (s.below k before).pass (row + k) = (s.pass row).below k before := by
  obtain ⟨rest, col, comment, tokens⟩ := s
  cases comment with
  | some p =>
    unfold pass below
    dsimp only [Option.map_some]
    cases afterComment col rest <;> rfl
  | none =>
    cases rest with
    | nil => rfl
    | cons c rest =>
      by_cases hline : c = '/' ∧ rest.head? = some '/'
      · obtain ⟨rfl, hhead⟩ := hline
        obtain ⟨rest, rfl⟩ := List.head?_eq_some_iff.1 hhead
        rfl
      by_cases hblock : c = '/' ∧ rest.head? = some '*'
      · obtain ⟨rfl, hhead⟩ := hblock
        obtain ⟨rest, rfl⟩ := List.head?_eq_some_iff.1 hhead
        rfl
      by_cases hquote : c = '"'
      · subst hquote
        have hread : readString ⟨row + k, col⟩ (col + 1) [] rest
            = downResult k id (readString ⟨row, col⟩ (col + 1) [] rest) :=
          readString_down k ⟨row, col⟩ (col + 1) [] rest
        simp only [pass, below, Option.map_none, hread]
        cases readString ⟨row, col⟩ (col + 1) [] rest with
        | error e => rfl
        | ok found => simp [downResult, Pass.below, below, emit, Token.down, Position.down]
      have hslash : c = '/' → rest.head? ≠ some '/' ∧ rest.head? ≠ some '*' := fun hc =>
        ⟨fun hhead => hline ⟨hc, hhead⟩, fun hhead => hblock ⟨hc, hhead⟩⟩
      have hword : ofWord ⟨row + k, col⟩ ((c :: rest).takeWhile isWordChar)
          = downResult k id (ofWord ⟨row, col⟩ ((c :: rest).takeWhile isWordChar)) :=
        ofWord_down k ⟨row, col⟩ _
      unfold below
      dsimp only [Option.map_none]
      rw [pass_cons hquote hslash, pass_cons hquote hslash, hword]
      by_cases hblank : Text.isBlank c
      · rw [if_pos hblank, if_pos hblank]
        rfl
      rw [if_neg hblank, if_neg hblank]
      by_cases hsymbol : isSymbol c
      · rw [if_pos hsymbol, if_pos hsymbol]
        simp [Pass.below, below, Token.down, Position.down]
      rw [if_neg hsymbol, if_neg hsymbol]
      cases ofWord ⟨row, col⟩ ((c :: rest).takeWhile isWordChar) with
      | error e => rfl
      | ok kind => simp [downResult, Pass.below, below, Token.down, Position.down]

/-- **A line is scanned alike further down**, whatever tokens were read before. -/
theorem run_below (k row : Nat) (before : Array Token) (s : Scanner) :
    (s.below k before).run (row + k) = (s.run row).below k before := by
  cases h : s.pass row with
  | more t =>
    have hlt := length_lt_of_pass h
    have hbelow : (s.below k before).pass (row + k) = .more (t.below k before) := by
      rw [pass_below, h]
      rfl
    rw [run_of_more h, run_of_more hbelow]
    exact run_below k row before t
  | done t =>
    have hbelow : (s.below k before).pass (row + k) = .done (t.below k before) := by
      rw [pass_below, h]
      rfl
    rw [run_of_done h, run_of_done hbelow]
    rfl
  | failed t e =>
    have hbelow : (s.below k before).pass (row + k) = .failed (t.below k before) (e.down k) := by
      rw [pass_below, h]
      rfl
    rw [run_of_failed h, run_of_failed hbelow]
    rfl
termination_by s.rest.length

end Scanner

/-- The tokens before a line only stand before those of the line. -/
theorem Scanner.run_behind (row : Nat) (before : Array Token) (s : Scanner) :
    Scanner.run row { s with tokens := before ++ s.tokens }
      = { s.run row with tokens := before ++ (s.run row).tokens } := by
  have h := Scanner.run_below 0 row before s
  simpa [Scanner.below, LineScan.below] using h

/-- **A line is scanned alike further down**, also if it stands in a comment. -/
theorem scanLine_down (k row : Nat) (comment : Option Position) (line : List Char) :
    scanLine (row + k) (comment.map (Position.down k)) line
      = (scanLine row comment line).below k #[] := by
  have hstart : Scanner.below k #[] { rest := line, col := 0, comment, tokens := #[] }
      = { rest := line, col := 0, comment := comment.map (Position.down k), tokens := #[] } := by
    simp [Scanner.below]
  unfold scanLine
  rw [Option.isSome_map, ← hstart, Scanner.run_below]
  split
  · simp [LineScan.below, downResult, LexicalError.down, Position.down]
  · rfl

end Token

end JackCompiler
