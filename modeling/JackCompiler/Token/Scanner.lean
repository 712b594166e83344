import JackCompiler.Token.Basic
import JackCompiler.Text.Numeral
/-!
# Scanning one line

A line is scanned in passes. A pass skips a blank, enters or leaves a block comment, or reads one
token; each makes the rest of the line shorter (`length_lt_of_pass`), which is why the scan ends.
Only a block comment reaches over the end of a line: the scan of a line starts from the position at
which a comment was left open, if one was, and answers the same for the next line.
-/

namespace JackCompiler

/-- Why a source text has no tokens. -/
inductive LexicalError
  /-- The line ends inside the string constant that begins here. -/
  | unterminatedString (pos : Position)
  /-- A line inside a block comment begins with something else than `*`. -/
  | malformedComment (pos : Position)
  /-- The text ends inside the block comment that begins here. -/
  | unterminatedComment (pos : Position)
  /-- The number is too large. -/
  | integerOverflow (pos : Position) (lexeme : String)
  /-- The word begins with a digit and goes on with something else. -/
  | invalidInteger (pos : Position) (lexeme : String)
  /-- The character of a string constant has too large a code. -/
  | invalidCharacter (pos : Position) (c : Char)
  /-- The string constant has too many characters. -/
  | stringTooLong (pos : Position) (length : Nat)
  deriving DecidableEq, Repr

namespace LexicalError

/-- Where the error is. -/
def pos : LexicalError → Position
  | unterminatedString pos => pos
  | malformedComment pos => pos
  | unterminatedComment pos => pos
  | integerOverflow pos _ => pos
  | invalidInteger pos _ => pos
  | invalidCharacter pos _ => pos
  | stringTooLong pos _ => pos

/-- The wording of the error. -/
def message : LexicalError → String
  | unterminatedString _ => "Unterminated string constant"
  | malformedComment _ => "Block comment line must start with `*`"
  | unterminatedComment _ => "Unterminated block comment"
  | integerOverflow _ lexeme => "Integer constant out of range 0..=32767: `" ++ lexeme ++ "`"
  | invalidInteger _ lexeme => "Invalid integer constant: `" ++ lexeme ++ "`"
  | invalidCharacter _ c =>
    "Character `" ++ c.toString ++ "` out of range 0..=32767 in string constant"
  | stringTooLong _ length =>
    "String constant of " ++ length.repr ++ " characters exceeds 32767"

end LexicalError

namespace Token

/-! ## The parts of a line -/

/-- Leaves a block comment: what follows the first `*/`, and its column. The comment stays open
when there is none. -/
def afterComment (col : Nat) : List Char → Option (List Char × Nat)
  | [] => none
  | '*' :: '/' :: rest => some (rest, col + 2)
  | c :: rest => afterComment (col + c.utf8Size) rest

/-- Reads a string constant from behind its opening quote, which stands at `start`. Inside, a
backslash makes the quote or backslash after it an ordinary character. The answer is the constant's
characters, the rest of the line and its column; `read` holds the characters before, reversed. -/
def readString (start : Position) (col : Nat) (read : List Char) :
    List Char → Except LexicalError (List Char × List Char × Nat)
  | [] => .error (.unterminatedString start)
  | '"' :: rest =>
    if limit < read.length then .error (.stringTooLong start read.length)
    else .ok (read.reverse, rest, col + 1)
  | '\\' :: '"' :: rest => readString start (col + 2) ('"' :: read) rest
  | '\\' :: '\\' :: rest => readString start (col + 2) ('\\' :: read) rest
  | c :: rest =>
    if limit < c.toNat then .error (.invalidCharacter { start with col } c)
    else readString start (col + c.utf8Size) (c :: read) rest

/-- Leaving a comment takes at least its two closing characters. -/
theorem length_lt_of_afterComment {col col' : Nat} {cs rest : List Char}
    (h : afterComment col cs = some (rest, col')) : rest.length < cs.length := by
  fun_induction afterComment col cs with
  | case1 => simp at h
  | case2 col cs =>
    obtain ⟨rfl, -⟩ := Prod.mk.inj (Option.some.inj h)
    simp only [List.length_cons]
    omega
  | case3 col c cs _ ih =>
    have := ih h
    simp only [List.length_cons]
    omega

/-- Reading a string constant takes at least its closing quote. -/
theorem length_lt_of_readString {start : Position} {col col' : Nat}
    {read text cs rest : List Char}
    (h : readString start col read cs = .ok (text, rest, col')) : rest.length < cs.length := by
  fun_induction readString start col read cs with
  | case1 => simp at h
  | case2 => simp at h
  | case3 col read cs =>
    obtain ⟨-, rfl, -⟩ := Except.ok.inj h
    simp only [List.length_cons]
    omega
  | case4 col read cs ih =>
    have := ih h
    simp only [List.length_cons]
    omega
  | case5 col read cs ih =>
    have := ih h
    simp only [List.length_cons]
    omega
  | case6 => simp at h
  | case7 col read c cs _ _ _ _ ih =>
    have := ih h
    simp only [List.length_cons]
    omega

/-- What a word is: a number if it begins with a digit, otherwise a keyword or a name. -/
def ofWord (pos : Position) (word : List Char) : Except LexicalError Kind :=
  let lexeme := String.ofList word
  if word.head?.any Char.isDigit then
    match Text.numeral? word with
    | none => .error (.invalidInteger pos lexeme)
    | some n =>
      if limit < n then .error (.integerOverflow pos lexeme) else .ok (.integer (UInt16.ofNat n))
  else
    match Keyword.ofWord? lexeme with
    | some k => .ok (.keyword k)
    | none => .ok (.name lexeme)

/-! ## The scan -/

/-- A line in the middle of its scan. -/
structure Scanner where
  /-- The part of the line that is still to be scanned. -/
  rest : List Char
  /-- The column at which that part begins. -/
  col : Nat
  /-- Where the block comment began in which the scan stands, if it stands in one. -/
  comment : Option Position
  /-- The tokens that were read. -/
  tokens : Array Token

/-- The outcome of a pass. -/
inductive Pass
  /-- The scan goes on. -/
  | more (s : Scanner)
  /-- The line is at its end. -/
  | done (s : Scanner)
  /-- The scan stops at an error. -/
  | failed (s : Scanner) (e : LexicalError)

/-- The scan of a line: the tokens that were read, and either the error that stopped it or where the
block comment began that the line leaves open. -/
structure LineScan where
  tokens : Array Token
  result : Except LexicalError (Option Position)

namespace Scanner

/-- The scan with one more token, after which the line goes on as given. -/
def emit (s : Scanner) (token : Token) (rest : List Char) (col : Nat) : Scanner :=
  { s with rest, col, tokens := s.tokens.push token }

/-- One pass over the line with the given number. -/
def pass (row : Nat) (s : Scanner) : Pass :=
  let pos : Position := ⟨row, s.col⟩
  match s.comment with
  | some _ =>
    match afterComment s.col s.rest with
    | some (rest, col) => .more { s with rest, col, comment := none }
    | none => .done { s with rest := [] }
  | none =>
    match s.rest with
    | [] => .done s
    | '/' :: '/' :: _ => .done { s with rest := [] }
    | '/' :: '*' :: rest => .more { s with rest, col := s.col + 2, comment := some pos }
    | '"' :: rest =>
      match readString pos (s.col + 1) [] rest with
      | .ok (text, rest, col) => .more (s.emit ⟨.string (String.ofList text), pos⟩ rest col)
      | .error e => .failed s e
    | c :: rest =>
      if Text.isBlank c then .more { s with rest, col := s.col + c.utf8Size }
      else if isSymbol c then .more (s.emit ⟨.symbol c, pos⟩ rest (s.col + 1))
      else
        let word := (c :: rest).takeWhile isWordChar
        match ofWord pos word with
        | .ok kind =>
          .more (s.emit ⟨kind, pos⟩ ((c :: rest).dropWhile isWordChar) (s.col + columns word))
        | .error e => .failed s e

/-- **A pass makes the rest of the line shorter**, unless it is the last. -/
theorem length_lt_of_pass {row : Nat} {s t : Scanner} (h : s.pass row = .more t) :
    t.rest.length < s.rest.length := by
  obtain ⟨rest, col, comment, tokens⟩ := s
  unfold pass at h
  dsimp only at h ⊢
  split at h
  · split at h
    · next hc =>
      obtain rfl := Pass.more.inj h
      exact length_lt_of_afterComment hc
    · cases h
  · split at h
    · cases h
    · cases h
    · obtain rfl := Pass.more.inj h
      simp only [List.length_cons]
      omega
    · split at h
      · next hs =>
        obtain rfl := Pass.more.inj h
        have := length_lt_of_readString hs
        simp only [emit, List.length_cons]
        omega
      · cases h
    · next c cs _ _ hquote =>
      split at h
      · obtain rfl := Pass.more.inj h
        simp
      · next hblank =>
        split at h
        · obtain rfl := Pass.more.inj h
          simp [emit]
        · next hsymbol =>
          have hword : isWordChar c := by
            have : c ≠ '"' := hquote
            simp [isWordChar, hblank, hsymbol, this]
          split at h
          · obtain rfl := Pass.more.inj h
            have := (List.dropWhile_suffix isWordChar (l := cs)).length_le
            simp only [emit, List.dropWhile_cons, hword, if_pos, List.length_cons]
            omega
          · cases h

/-- Passes over the line until one is the last. -/
def run (row : Nat) (s : Scanner) : LineScan :=
  match h : s.pass row with
  | .more t =>
    have := length_lt_of_pass h
    run row t
  | .done t => { tokens := t.tokens, result := .ok t.comment }
  | .failed t e => { tokens := t.tokens, result := .error e }
termination_by s.rest.length

end Scanner

/-- Scans a line. `comment` is where the block comment began in which the line stands, if it stands
in one; such a line must begin with `*`, blanks apart. -/
def scanLine (row : Nat) (comment : Option Position) (line : List Char) : LineScan :=
  if comment.isSome && (line.dropWhile Text.isBlank).head? != some '*' then
    { tokens := #[]
      result := .error (.malformedComment ⟨row, columns (line.takeWhile Text.isBlank)⟩) }
  else
    Scanner.run row { rest := line, col := 0, comment, tokens := #[] }

end Token

end JackCompiler
