import JackCompiler.Proofs.Lexing.Places
/-!
# What the scan of a text finds next

Outside comments, the scan of a text that is not at its end finds a gap, a token or a fault
(`resume_finds`). This is said once for all that can stand there, with what is known of it: a gap
and a token are well-formed, a token is spelled by the characters that were taken, and a fault
stands where the error says. What a scan does with the whole text follows by induction.
-/

namespace JackCompiler

namespace Token

/-! ## Spellings -/

/-- What the characters between the quotes of a string constant stand for: a backslash makes the
quote or backslash behind it an ordinary character. A quote that no backslash precedes would end the
constant, so it does not stand between the quotes, and neither does a last backslash, which would
take the closing quote for itself. -/
def unescape? : List Char → Option (List Char)
  | [] => some []
  | '"' :: _ => none
  | ['\\'] => none
  | '\\' :: '"' :: rest => (unescape? rest).map ('"' :: ·)
  | '\\' :: '\\' :: rest => (unescape? rest).map ('\\' :: ·)
  | c :: rest => (unescape? rest).map (c :: ·)

/-- The characters spell the token. Numbers can have leading zeros, and in a string constant a
backslash need not be escaped where it escapes nothing. -/
def Kind.Spells : Kind → List Char → Prop
  | keyword k, w => w = k.word.toList
  | symbol c, w => w = [c]
  | integer n, w => Text.numeral? w = some n.toNat
  | string s, w => ∃ body, w = '"' :: (body ++ ['"']) ∧ unescape? body = some s.toList
  | name s, w => w = s.toList

/-- The token cannot go on in what stands behind it: a word ends where no character of a word
follows, and a slash is a symbol where it does not begin a comment. -/
def Kind.Stops : Kind → List Char → Prop
  | symbol c, rest => c = '/' → rest.head? ≠ some '/' ∧ rest.head? ≠ some '*'
  | string _, _ => True
  | _, rest => ∀ c, rest.head? = some c → isWordChar c = false

variable {c : Char} {w body plain : List Char} {k : Kind}

theorem unescape?_cons (hquote : c ≠ '"')
    (hslash : c = '\\' → body ≠ [] ∧ body.head? ≠ some '"' ∧ body.head? ≠ some '\\') :
    unescape? (c :: body) = (unescape? body).map (c :: ·) := by
  rw [unescape?]
  · exact hquote
  · rintro rfl rfl
    exact (hslash rfl).1 rfl
  · rintro rest rfl rfl
    exact (hslash rfl).2.1 rfl
  · rintro rest rfl rfl
    exact (hslash rfl).2.2 rfl

/-- Only backslashes are lost between the quotes, and nothing is added. -/
theorem mem_unescape?_iff (h : unescape? body = some plain) (hc : c ≠ '\\') :
    c ∈ plain ↔ c ∈ body := by
  fun_induction unescape? body generalizing plain with
  | case1 =>
    cases h
    rfl
  | case2 => cases h
  | case3 => cases h
  | case4 rest ih =>
    obtain ⟨inner, hi, rfl⟩ := Option.map_eq_some_iff.1 h
    simp [hc, ih hi]
  | case5 rest ih =>
    obtain ⟨inner, hi, rfl⟩ := Option.map_eq_some_iff.1 h
    simp [hc, ih hi]
  | case6 d rest _ _ _ _ ih =>
    obtain ⟨inner, hi, rfl⟩ := Option.map_eq_some_iff.1 h
    simp [ih hi]

/-- **A token is spelled on one line**, and by at least one character. -/
theorem Kind.Spells.oneLine (hk : k.WellFormed) (h : k.Spells w) :
    w ≠ [] ∧ '\n' ∉ w ∧ w.getLast? ≠ some '\r' := by
  cases k with
  | keyword k =>
    obtain rfl : w = k.word.toList := h
    have hblank : k.word.toList.all fun c => !Text.isBlank c := by cases k <;> decide
    refine ⟨by cases k <;> decide, oneLine_of_forall_not_isBlank fun c hc => ?_⟩
    simpa using List.all_eq_true.1 hblank c hc
  | symbol c =>
    obtain rfl : w = [c] := h
    have hblank : ∀ d ∈ [c], Text.isBlank d = false := by
      simpa using (symbol_facts hk).1
    exact ⟨by simp, oneLine_of_forall_not_isBlank hblank⟩
  | integer n =>
    obtain ⟨hne, hdigits, -⟩ := Text.numeral?_eq_some.1 h
    refine ⟨hne, oneLine_of_forall_not_isBlank fun c hc => ?_⟩
    exact not_isBlank_of_isWordChar (isWordChar_of_isDigit (hdigits c hc))
  | string s =>
    obtain ⟨body, rfl, hbody⟩ := h
    refine ⟨by simp, ?_, ?_⟩
    · have hn : '\n' ∉ body := fun hn =>
        hk.oneLine ((mem_unescape?_iff hbody (by decide)).2 hn)
      simp [hn]
    · rw [← List.cons_append, List.getLast?_concat]
      decide
  | name s =>
    obtain rfl : w = s.toList := h
    exact ⟨hk.ne_nil,
      oneLine_of_forall_not_isBlank fun c hc => not_isBlank_of_isWordChar (hk.wordChars c hc)⟩

/-! ## Words and string constants -/

theorem ofWord_eq_ok {pos : Position} (hne : w ≠ []) (hw : ∀ c ∈ w, isWordChar c)
    (h : ofWord pos w = .ok k) :
    k.WellFormed ∧ k.Spells w ∧
      ∀ rest : List Char, (∀ c, rest.head? = some c → isWordChar c = false) → k.Stops rest := by
  unfold ofWord at h
  dsimp only at h
  split at h
  · split at h
    · cases h
    · next n hn =>
      split at h
      · cases h
      · next hle =>
        obtain rfl := Except.ok.inj h
        have hle : n ≤ limit := Nat.not_lt.1 hle
        have hsize : n < UInt16.size := Nat.lt_of_le_of_lt hle (by decide)
        have hword : (UInt16.ofNat n).toNat = n := UInt16.toNat_ofNat_of_lt hsize
        refine ⟨?_, ?_, fun rest hrest => hrest⟩
        · simpa only [Kind.WellFormed, hword] using hle
        · simpa only [Kind.Spells, hword] using hn
  · next hdigit =>
    split at h
    · next keyword hk =>
      obtain rfl := Except.ok.inj h
      have hword : keyword.word = String.ofList w := by
        simpa using List.find?_some hk
      exact ⟨trivial, by rw [Kind.Spells, hword, String.toList_ofList], fun rest hrest => hrest⟩
    · next hk =>
      obtain rfl := Except.ok.inj h
      refine ⟨⟨?_, ?_, ?_, hk⟩, by simp [Kind.Spells], fun rest hrest => hrest⟩
      · simpa using hne
      · simpa using hw
      · simpa using hdigit

theorem ofWord_eq_error {pos : Position} {e : LexicalError} (h : ofWord pos w = .error e) :
    e = .invalidInteger pos (String.ofList w) ∨ e = .integerOverflow pos (String.ofList w) := by
  unfold ofWord at h
  dsimp only at h
  split at h
  · split at h
    · exact .inl (Except.error.inj h).symm
    · split at h
      · exact .inr (Except.error.inj h).symm
      · cases h
  · split at h <;> cases h

variable {start : Position} {col : Nat} {read cs : List Char}

/-- What is read as a string constant stands between two quotes. -/
theorem readString_eq_ok {text rest : List Char} {col' : Nat}
    (h : readString start col read cs = .ok (text, rest, col')) :
    ∃ body plain, cs = body ++ '"' :: rest ∧ unescape? body = some plain ∧
      text = read.reverse ++ plain ∧ text.length ≤ limit ∧ (∀ c ∈ plain, c.toNat ≤ limit) ∧
      col' = col + columns body + 1 := by
  fun_induction readString start col read cs with
  | case1 => cases h
  | case2 => cases h
  | case3 col read cs hle =>
    cases h
    refine ⟨[], [], rfl, rfl, (List.append_nil _).symm, ?_, by simp, rfl⟩
    simpa using hle
  | case4 col read cs ih =>
    obtain ⟨body, plain, rfl, hbody, htext, hlen, hcodes, hcol⟩ := ih h
    refine ⟨'\\' :: '"' :: body, '"' :: plain, rfl, by simp [unescape?, hbody], by simp [htext],
      hlen, List.forall_mem_cons.2 ⟨by decide, hcodes⟩, ?_⟩
    rw [hcol, columns_cons, columns_cons, show '\\'.utf8Size = 1 from rfl,
      show '"'.utf8Size = 1 from rfl]
    omega
  | case5 col read cs ih =>
    obtain ⟨body, plain, rfl, hbody, htext, hlen, hcodes, hcol⟩ := ih h
    refine ⟨'\\' :: '\\' :: body, '\\' :: plain, rfl, by simp [unescape?, hbody], by simp [htext],
      hlen, List.forall_mem_cons.2 ⟨by decide, hcodes⟩, ?_⟩
    rw [hcol, columns_cons, columns_cons, show '\\'.utf8Size = 1 from rfl]
    omega
  | case6 => cases h
  | case7 col read c cs hquote hescaped hslash hle ih =>
    obtain ⟨body, plain, rfl, hbody, htext, hlen, hcodes, hcol⟩ := ih h
    have hcons : unescape? (c :: body) = some (c :: plain) := by
      rw [unescape?_cons hquote, hbody, Option.map_some]
      -- the backslash escapes nothing, so neither a quote nor a backslash stands behind it
      rintro rfl
      cases body with
      | nil => exact absurd rfl (hescaped _ rfl)
      | cons d body =>
        refine ⟨by simp, ?_, ?_⟩
        · rintro hd
          cases hd
          exact hescaped _ rfl rfl
        · rintro hd
          cases hd
          exact hslash _ rfl rfl
    refine ⟨c :: body, c :: plain, rfl, hcons, by simp [htext], hlen,
      List.forall_mem_cons.2 ⟨Nat.not_lt.1 hle, hcodes⟩, ?_⟩
    rw [hcol, columns_cons]
    omega

/-- A string constant that cannot be read is reported at its quote, a character of it at its own
place. -/
def StringFault (start : Position) (col : Nat) (cs : List Char) (e : LexicalError) : Prop :=
  e = .unterminatedString start ∨ (∃ n, e = .stringTooLong start n) ∨
    ∃ a c b, cs = a ++ c :: b ∧ limit < c.toNat ∧
      e = .invalidCharacter ⟨start.row, col + columns a⟩ c

theorem StringFault.cons {e : LexicalError} (h : StringFault start (col + c.utf8Size) cs e) :
    StringFault start col (c :: cs) e := by
  rcases h with h | h | ⟨a, d, b, rfl, hd, rfl⟩
  · exact .inl h
  · exact .inr (.inl h)
  · refine .inr (.inr ⟨c :: a, d, b, rfl, hd, ?_⟩)
    rw [columns_cons, Nat.add_assoc]

theorem stringFault_of_readString {e : LexicalError}
    (h : readString start col read cs = .error e) : StringFault start col cs e := by
  fun_induction readString start col read cs with
  | case1 => exact .inl (Except.error.inj h).symm
  | case2 => exact .inr (.inl ⟨_, (Except.error.inj h).symm⟩)
  | case3 => cases h
  | case4 col read cs ih => exact .cons (.cons (ih h))
  | case5 col read cs ih => exact .cons (.cons (ih h))
  | case6 col read c cs _ _ _ hlt =>
    exact .inr (.inr ⟨[], c, cs, rfl, hlt, (Except.error.inj h).symm⟩)
  | case7 col read c cs _ _ _ _ ih => exact .cons (ih h)

/-! ## Faults -/

/-- An error of the scan at a position stands in the text behind that position: at its beginning,
at a character of the string constant that begins there, or on a later line of the comment that
begins there. -/
inductive Fault : Position → List Char → LexicalError → Prop
  | unterminatedString {pos : Position} {cs : List Char} :
      Fault pos ('"' :: cs) (.unterminatedString pos)
  | stringTooLong {pos : Position} {cs : List Char} {n : Nat} :
      Fault pos ('"' :: cs) (.stringTooLong pos n)
  | invalidCharacter {pos : Position} {a cs : List Char} {c : Char} :
      limit < c.toNat → Fault pos (a ++ c :: cs) (.invalidCharacter (pos.after a) c)
  | invalidInteger {pos : Position} {w cs : List Char} :
      w ≠ [] → (∀ c ∈ w, isWordChar c) →
      Fault pos (w ++ cs) (.invalidInteger pos (String.ofList w))
  | integerOverflow {pos : Position} {w cs : List Char} :
      w ≠ [] → (∀ c ∈ w, isWordChar c) →
      Fault pos (w ++ cs) (.integerOverflow pos (String.ofList w))
  | unterminatedComment {pos : Position} {cs : List Char} :
      Fault pos ('/' :: '*' :: cs) (.unterminatedComment pos)
  /-- The line that begins behind the line feed does not begin with `*`. -/
  | malformedComment {pos : Position} {a cs : List Char} :
      cs ≠ [] → ¬ Spacer.BeginsWithStar (lineRest cs) →
      Fault pos (a ++ '\n' :: cs) (.malformedComment
        ⟨(pos.after (a ++ ['\n'])).row, columns ((lineRest cs).takeWhile Text.isBlank)⟩)

/-! ## Comments -/

variable {pos p : Position} {tokens : Array Token} {text rest : List Char}

theorem wellFormed_comment_nil : (Spacer.blockComment []).WellFormed := by
  decide

theorem wellFormed_comment_cons (hc : c ≠ '\n')
    (hend : c = '*' → (text ++ '*' :: '/' :: rest).head? ≠ some '/')
    (h : (Spacer.blockComment text).WellFormed) : (Spacer.blockComment (c :: text)).WellFormed := by
  obtain ⟨hopen, hlines⟩ := h
  refine ⟨?_, ?_⟩
  · intro hi
    rcases List.infix_cons_iff.1 hi with hi | hi
    · obtain ⟨more, hmore⟩ := hi
      obtain ⟨rfl, rfl⟩ : '*' = c ∧ '/' :: more = text := by simpa using hmore
      exact hend rfl rfl
    · exact hopen hi
  · rw [List.cons_append, splitOn_cons hc]
    simpa using hlines

/-- The line on which a comment goes on begins with `*` also without what stands behind the
comment. -/
theorem beginsWithStar_of_lineRest {first : List Char} {others : List (List Char)}
    (hsplit : (text ++ ['*', '/']).splitOn '\n' = first :: others)
    (hstar : Spacer.BeginsWithStar (lineRest (text ++ '*' :: '/' :: rest))) :
    Spacer.BeginsWithStar first := by
  induction text generalizing first others with
  | nil =>
    obtain rfl : ['*', '/'] = first := (List.cons.inj hsplit).1
    rfl
  | cons c text ih =>
    by_cases hc : c = '\n'
    · rw [hc] at hstar
      exact absurd hstar not_beginsWithStar_nil
    obtain ⟨first, others, htext⟩ :=
      List.exists_cons_of_ne_nil (List.splitOn_ne_nil '\n' (text ++ ['*', '/']))
    rw [List.cons_append, splitOn_cons hc, htext] at hsplit
    cases hsplit
    by_cases hr : c = '\r' ∧ (text ++ '*' :: '/' :: rest).head? = some '\n'
    · -- the line ends here, so it does not begin with `*`
      obtain ⟨rfl, hhead⟩ := hr
      obtain ⟨more, hmore⟩ := List.head?_eq_some_iff.1 hhead
      rw [List.cons_append, hmore] at hstar
      exact absurd hstar not_beginsWithStar_nil
    rw [List.cons_append, lineRest_cons hc fun h hhead => hr ⟨h, hhead⟩] at hstar
    by_cases hb : Text.isBlank c
    · have hfirst : Spacer.BeginsWithStar first :=
        ih htext (by simpa [Spacer.BeginsWithStar, hb] using hstar)
      simpa [Spacer.BeginsWithStar, hb] using hfirst
    · simpa [Spacer.BeginsWithStar, hb] using hstar

theorem wellFormed_comment_newline
    (hstar : Spacer.BeginsWithStar (lineRest (text ++ '*' :: '/' :: rest)))
    (h : (Spacer.blockComment text).WellFormed) :
    (Spacer.blockComment ('\n' :: text)).WellFormed := by
  obtain ⟨hopen, hlines⟩ := h
  refine ⟨?_, ?_⟩
  · intro hi
    rcases List.infix_cons_iff.1 hi with ⟨more, hmore⟩ | hi
    · cases hmore
    · exact hopen hi
  · obtain ⟨first, others, hsplit⟩ :=
      List.exists_cons_of_ne_nil (List.splitOn_ne_nil '\n' (text ++ ['*', '/']))
    rw [hsplit] at hlines
    rw [List.cons_append, splitOn_newline, List.tail_cons, hsplit]
    exact List.forall_mem_cons.2 ⟨beginsWithStar_of_lineRest hsplit hstar, hlines⟩

/-- A comment that is open at the end of the text is reported where it began. -/
theorem resume_unterminated (hcs : cs = [] ∨ cs = ['\n']) :
    resume pos (some p) tokens cs = .error (.unterminatedComment p) := by
  have hrest : lineRest cs = [] ∧ nextLines cs = [] := by
    rcases hcs with rfl | rfl <;> exact ⟨rfl, rfl⟩
  unfold resume
  rw [hrest.1, hrest.2, Scanner.run_of_rest_eq_nil rfl, Text.lines_nil]
  rfl

/-- A line on which a comment goes on must begin with `*`. -/
theorem resume_malformed (hcs : cs ≠ []) (hstar : ¬ Spacer.BeginsWithStar (lineRest cs)) :
    resume pos (some p) tokens ('\n' :: cs) = .error (.malformedComment
      ⟨pos.row + 1, columns ((lineRest cs).takeWhile Text.isBlank)⟩) := by
  have hline : scanLine (pos.row + 1) (some p) (lineRest cs)
      = { tokens := #[], result := .error (.malformedComment
          ⟨pos.row + 1, columns ((lineRest cs).takeWhile Text.isBlank)⟩) } := by
    unfold scanLine
    rw [if_pos]
    simpa [Spacer.BeginsWithStar] using hstar
  have hscan : ∀ tokens,
      Lexer.scan { row := pos.row + 1, comment := some p, tokens } (lineRest cs)
        = .error (.malformedComment
          ⟨pos.row + 1, columns ((lineRest cs).takeWhile Text.isBlank)⟩) := by
    intro tokens
    unfold Lexer.scan
    dsimp only
    rw [hline]
    rfl
  unfold resume
  rw [Scanner.run_of_rest_eq_nil rfl, nextLines, lines_eq_cons hcs]
  change ((lineRest cs :: Text.lines (nextLines cs)).foldlM Lexer.scan _ >>= Lexer.finish) = _
  rw [List.foldlM_cons, hscan]
  rfl

/-- **Inside a comment**, the scan finds its end, or the end of the text, or a line that does not go
on with it. -/
theorem resume_comment (pos p : Position) (tokens : Array Token) (cs : List Char) :
    (∃ text rest, (Spacer.blockComment text).WellFormed ∧ cs = text ++ '*' :: '/' :: rest ∧
      resume pos (some p) tokens cs
        = resume (pos.after (text ++ ['*', '/'])) none tokens rest) ∨
    resume pos (some p) tokens cs = .error (.unterminatedComment p) ∨
    ∃ a b, cs = a ++ '\n' :: b ∧ b ≠ [] ∧ ¬ Spacer.BeginsWithStar (lineRest b) ∧
      resume pos (some p) tokens cs = .error (.malformedComment
        ⟨(pos.after (a ++ ['\n'])).row, columns ((lineRest b).takeWhile Text.isBlank)⟩) := by
  induction cs generalizing pos with
  | nil => exact .inr (.inl (resume_unterminated (.inl rfl)))
  | cons c cs ih =>
    by_cases hn : c = '\n'
    · subst hn
      by_cases hcs : cs = []
      · exact .inr (.inl (resume_unterminated (.inr (by rw [hcs]))))
      by_cases hstar : Spacer.BeginsWithStar (lineRest cs)
      · rw [resume_newline (.inr hstar)]
        rcases ih (pos.next '\n') with ⟨text, rest, hwf, rfl, hscan⟩ | herror | ⟨a, b, rfl, hb⟩
        · exact .inl ⟨'\n' :: text, rest, wellFormed_comment_newline hstar hwf, rfl, hscan⟩
        · exact .inr (.inl herror)
        · exact .inr (.inr ⟨'\n' :: a, b, rfl, hb⟩)
      · exact .inr (.inr ⟨[], cs, rfl, hcs, hstar, resume_malformed hcs hstar⟩)
    by_cases hend : c = '*' ∧ cs.head? = some '/'
    · obtain ⟨rfl, hhead⟩ := hend
      obtain ⟨rest, rfl⟩ := List.head?_eq_some_iff.1 hhead
      exact .inl ⟨[], rest, wellFormed_comment_nil, rfl, resume_closeComment⟩
    · rw [resume_inComment hn fun hstar hhead => hend ⟨hstar, hhead⟩]
      rcases ih (pos.next c) with ⟨text, rest, hwf, rfl, hscan⟩ | herror | ⟨a, b, rfl, hb⟩
      · have hcons := wellFormed_comment_cons hn (fun hstar hhead => hend ⟨hstar, hhead⟩) hwf
        exact .inl ⟨c :: text, rest, hcons, rfl, hscan⟩
      · exact .inr (.inl herror)
      · exact .inr (.inr ⟨c :: a, b, rfl, hb⟩)

/-! ## The next piece of a text -/

/-- What a scan that has the result finds next in a text. -/
inductive Finds (pos : Position) (tokens : Array Token)
    (result : Except LexicalError (List Token)) : List Char → Prop
  | nothing : result = .ok tokens.toList → Finds pos tokens result []
  /-- A comment that ends with the text. -/
  | lastComment {text : List Char} :
      '\n' ∉ text → result = .ok tokens.toList → Finds pos tokens result ('/' :: '/' :: text)
  | spacer {s : Spacer} {cs : List Char} :
      s.WellFormed → resume (pos.after s.text) none tokens cs = result →
      Finds pos tokens result (s.text ++ cs)
  | token {k : Kind} {w cs : List Char} :
      k.WellFormed → k.Spells w → k.Stops cs →
      resume (pos.after w) none (tokens.push ⟨k, pos⟩) cs = result →
      Finds pos tokens result (w ++ cs)
  | fault {cs : List Char} {e : LexicalError} :
      Fault pos cs e → result = .error e → Finds pos tokens result cs

/-- A pass that fails ends the scan. -/
theorem resume_of_failed {s : Scanner} {e : LexicalError}
    (hpass : Scanner.pass pos.row
        { rest := lineRest cs, col := pos.col, comment := none, tokens } = .failed s e) :
    resume pos none tokens cs = .error e := by
  unfold resume
  rw [Scanner.run_of_failed hpass]
  rfl

/-- A character of a word begins a token, or a fault if the word is no number. -/
theorem finds_word (hc : isWordChar c) :
    Finds pos tokens (resume pos none tokens (c :: cs)) (c :: cs) := by
  obtain ⟨w, rest, hsplit, hne, hw, hstop⟩ : ∃ w rest, c :: cs = w ++ rest ∧ w ≠ [] ∧
      (∀ d ∈ w, isWordChar d) ∧ ∀ d, rest.head? = some d → isWordChar d = false := by
    refine ⟨(c :: cs).takeWhile isWordChar, (c :: cs).dropWhile isWordChar,
      List.takeWhile_append_dropWhile.symm, by simp [hc], fun d hd => ?_, fun d hd => ?_⟩
    · exact List.all_eq_true.1 List.all_takeWhile d hd
    · have := List.head?_dropWhile_not isWordChar (c :: cs)
      rw [hd] at this
      simpa using this
  rw [hsplit]
  cases hk : ofWord pos w with
  | ok k =>
    obtain ⟨hwf, hspells, hstops⟩ := ofWord_eq_ok hne hw hk
    exact .token hwf hspells (hstops rest hstop) (resume_word hne hw hstop hk).symm
  | error e =>
    have herror : resume pos none tokens (w ++ rest) = .error e := by
      obtain ⟨hn, hr⟩ :=
        oneLine_of_forall_not_isBlank fun d hd => not_isBlank_of_isWordChar (hw d hd)
      refine resume_of_failed (s := ⟨w ++ lineRest rest, pos.col, none, tokens⟩) ?_
      rw [lineRest_append hn hr,
        Scanner.pass_word hne hw fun d hd => hstop d (head?_of_lineRest hd), hk]
    rcases ofWord_eq_error hk with rfl | rfl
    · exact .fault (.invalidInteger hne hw) herror
    · exact .fault (.integerOverflow hne hw) herror

/-- A quote begins a string constant, or a fault if the constant cannot be read. -/
theorem finds_string : Finds pos tokens (resume pos none tokens ('"' :: cs)) ('"' :: cs) := by
  have hrest : lineRest ('"' :: cs) = '"' :: lineRest cs :=
    lineRest_cons (by decide) fun h => absurd h (by decide)
  cases hread : readString pos (pos.col + 1) [] (lineRest cs) with
  | ok found =>
    obtain ⟨text, rest, col⟩ := found
    obtain ⟨body, _, hline, hbody, rfl, hlen, hcodes, rfl⟩ := readString_eq_ok hread
    have hn : '\n' ∉ body := fun hn => newline_notMem_lineRest cs (by rw [hline]; simp [hn])
    obtain ⟨more, rfl, rfl⟩ : ∃ more, cs = body ++ ['"'] ++ more ∧ lineRest more = rest :=
      eq_append_of_lineRest (by simpa using hline)
    have hstring : (Kind.string (String.ofList text)).WellFormed := by
      refine IsString.mk (by simpa using hlen) (by simpa using hcodes) ?_
      rw [String.toList_ofList]
      exact fun hp => hn ((mem_unescape?_iff hbody (by decide)).1 hp)
    have hspells : (Kind.string (String.ofList text)).Spells ('"' :: (body ++ ['"'])) :=
      ⟨body, rfl, by rw [hbody, String.toList_ofList]⟩
    obtain ⟨-, honeLine, hlast⟩ := hspells.oneLine hstring
    refine .token (w := '"' :: (body ++ ['"'])) hstring hspells trivial
      (resume_token_of_pass honeLine hlast ?_).symm
    have hcol : pos.col + 1 + columns body + 1 = pos.col + columns ('"' :: (body ++ ['"'])) := by
      rw [columns_cons, columns_append, show columns ['"'] = 1 from rfl,
        show '"'.utf8Size = 1 from rfl]
      omega
    rw [hline] at hread
    simp only [List.cons_append, List.append_assoc, List.nil_append, Scanner.pass, hread, hcol]
    rfl
  | error e =>
    have herror : resume pos none tokens ('"' :: cs) = .error e := by
      refine resume_of_failed (s := ⟨'"' :: lineRest cs, pos.col, none, tokens⟩) ?_
      rw [hrest]
      simp only [Scanner.pass, hread]
    rcases stringFault_of_readString hread with rfl | ⟨n, rfl⟩ | ⟨a, c, b, hline, hlt, rfl⟩
    · exact .fault .unterminatedString herror
    · exact .fault .stringTooLong herror
    · have hn : '\n' ∉ '"' :: a := by
        have : '\n' ∉ a := fun hn => newline_notMem_lineRest cs (by rw [hline]; simp [hn])
        simpa using this
      have hpos : pos.after ('"' :: a) = ⟨pos.row, pos.col + 1 + columns a⟩ := by
        rw [after_of_notMem hn, columns_cons, Nat.add_assoc]
        rfl
      obtain ⟨more, rfl, -⟩ : ∃ more, cs = a ++ [c] ++ more ∧ lineRest more = b :=
        eq_append_of_lineRest (by simpa using hline)
      have hfault : Fault pos ('"' :: a ++ c :: more)
          (.invalidCharacter (pos.after ('"' :: a)) c) :=
        .invalidCharacter hlt
      rw [hpos] at hfault
      refine .fault ?_ herror
      simpa using hfault

/-- Two slashes begin a comment that ends with the line. -/
theorem finds_lineComment :
    Finds pos tokens (resume pos none tokens ('/' :: '/' :: cs)) ('/' :: '/' :: cs) := by
  by_cases hn : '\n' ∈ cs
  · obtain ⟨text, rest, rfl, ht⟩ := List.eq_append_cons_of_mem hn
    rw [resume_lineComment ht, ← after_lineComment ht]
    have hfinds : Finds pos tokens _ ((Spacer.lineComment text).text ++ rest) :=
      .spacer (s := .lineComment text) ht rfl
    simpa [Spacer.text] using hfinds
  · refine .lastComment hn ?_
    have hslashes : '\n' ∉ '/' :: '/' :: cs := by simpa using hn
    unfold resume
    rw [(lineRest_eq_self hslashes).1, (lineRest_eq_self hslashes).2, Scanner.run_of_done rfl,
      Text.lines_nil]
    rfl

/-- A slash and a star begin a block comment, or a fault if it does not end. -/
theorem finds_blockComment :
    Finds pos tokens (resume pos none tokens ('/' :: '*' :: cs)) ('/' :: '*' :: cs) := by
  rw [resume_openComment]
  rcases resume_comment (pos.after ['/', '*']) pos tokens cs with
    ⟨text, rest, hwf, rfl, hscan⟩ | herror | ⟨a, b, rfl, hb, hstar, herror⟩
  · have hfinds := Finds.spacer (s := .blockComment text) hwf hscan.symm
    simpa [Spacer.text] using hfinds
  · exact .fault .unterminatedComment herror
  · exact .fault (.malformedComment (a := '/' :: '*' :: a) hb hstar) herror

/-- **What a scan finds next**, outside comments. -/
theorem resume_finds (pos : Position) (tokens : Array Token) (cs : List Char) :
    Finds pos tokens (resume pos none tokens cs) cs := by
  cases cs with
  | nil => exact .nothing resume_nil
  | cons c cs =>
    by_cases hn : c = '\n'
    · subst hn
      exact .spacer (s := .blank '\n') rfl (resume_newline (.inl rfl)).symm
    by_cases hb : Text.isBlank c
    · exact .spacer (s := .blank c) hb (resume_blank hb hn).symm
    by_cases hquote : c = '"'
    · subst hquote
      exact finds_string
    by_cases hline : c = '/' ∧ cs.head? = some '/'
    · obtain ⟨rfl, hhead⟩ := hline
      obtain ⟨rest, rfl⟩ := List.head?_eq_some_iff.1 hhead
      exact finds_lineComment
    by_cases hblock : c = '/' ∧ cs.head? = some '*'
    · obtain ⟨rfl, hhead⟩ := hblock
      obtain ⟨rest, rfl⟩ := List.head?_eq_some_iff.1 hhead
      exact finds_blockComment
    by_cases hsymbol : isSymbol c
    · have hslash : c = '/' → cs.head? ≠ some '/' ∧ cs.head? ≠ some '*' := fun hc =>
        ⟨fun hd => hline ⟨hc, hd⟩, fun hd => hblock ⟨hc, hd⟩⟩
      exact .token (k := .symbol c) (w := [c]) hsymbol rfl hslash
        (resume_symbol hsymbol hslash).symm
    · exact finds_word (by simp [isWordChar, hb, hquote, hsymbol])

end Token

end JackCompiler
