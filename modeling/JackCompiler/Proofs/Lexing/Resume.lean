import JackCompiler.Proofs.Lexing.Layout
import JackCompiler.Proofs.Lexing.OneLine
/-!
# Scanning the rest of a text

The scan goes line by line, but what it does next depends only on the text that is left: on the rest
of the current line and on the lines behind it (`resume`). One lemma for each thing that can stand
there says how the scan gets past it.
-/

namespace JackCompiler

namespace Token

/-! ## Lines -/

/-- The rest of the current line, without its end. -/
def lineRest : List Char → List Char
  | [] => []
  | '\n' :: _ => []
  | '\r' :: '\n' :: _ => []
  | c :: cs => c :: lineRest cs

/-- The text behind the current line. -/
def nextLines : List Char → List Char
  | [] => []
  | '\n' :: cs => cs
  | _ :: cs => nextLines cs

variable {c : Char} {cs w : List Char}

theorem lineRest_cons (hc : c ≠ '\n') (hr : c = '\r' → cs.head? ≠ some '\n') :
    lineRest (c :: cs) = c :: lineRest cs := by
  rw [lineRest]
  · exact hc
  · rintro cs' rfl rfl
    exact hr rfl rfl

/-- What stands first on the rest of the line stands first in the text. -/
theorem head?_of_lineRest {d : Char} (h : (lineRest cs).head? = some d) : cs.head? = some d := by
  unfold lineRest at h
  split at h
  · cases h
  · cases h
  · cases h
  · exact h

theorem nextLines_cons (hc : c ≠ '\n') : nextLines (c :: cs) = nextLines cs := by
  rw [nextLines]
  exact hc

theorem nextLines_append (hw : '\n' ∉ w) : nextLines (w ++ cs) = nextLines cs := by
  induction w with
  | nil => rfl
  | cons c w ih =>
    obtain ⟨hc, hw⟩ := List.ne_and_not_mem_of_not_mem_cons hw
    rw [List.cons_append, nextLines_cons (Ne.symm hc), ih hw]

/-- Characters that do not end the line are part of its rest. A carriage return at their end may
belong to the end of the line. -/
theorem lineRest_append (hw : '\n' ∉ w) (hr : w.getLast? ≠ some '\r') :
    lineRest (w ++ cs) = w ++ lineRest cs := by
  induction w with
  | nil => rfl
  | cons c w ih =>
    obtain ⟨hc, hcs⟩ := List.ne_and_not_mem_of_not_mem_cons hw
    cases w with
    | nil => exact lineRest_cons (Ne.symm hc) fun h => absurd (congrArg some h) hr
    | cons d w =>
      have hd : '\n' ≠ d := (List.ne_and_not_mem_of_not_mem_cons hcs).1
      rw [List.cons_append, lineRest_cons (Ne.symm hc), ih hcs (by simpa using hr)]
      · rfl
      · simpa using fun _ => Ne.symm hd

theorem lineRest_eq_self (h : '\n' ∉ cs) : lineRest cs = cs ∧ nextLines cs = [] := by
  induction cs with
  | nil => exact ⟨rfl, rfl⟩
  | cons c cs ih =>
    obtain ⟨hc, hcs⟩ := List.ne_and_not_mem_of_not_mem_cons h
    have hhead : cs.head? ≠ some '\n' := fun hh => hcs (List.mem_of_mem_head? hh)
    rw [lineRest_cons (Ne.symm hc) fun _ => hhead, nextLines_cons (Ne.symm hc), (ih hcs).1]
    exact ⟨rfl, (ih hcs).2⟩

theorem lineRest_return (hw : '\n' ∉ w) : lineRest (w ++ '\r' :: '\n' :: cs) = w := by
  induction w with
  | nil => rw [List.nil_append, lineRest]
  | cons c w ih =>
    obtain ⟨hc, hw⟩ := List.ne_and_not_mem_of_not_mem_cons hw
    have hhead : (w ++ '\r' :: '\n' :: cs).head? ≠ some '\n' := by
      cases w with
      | nil => simp
      | cons d w => simpa using Ne.symm (List.ne_and_not_mem_of_not_mem_cons hw).1
    rw [List.cons_append, lineRest_cons (Ne.symm hc) fun _ => hhead, ih hw]

theorem lineRest_eq_dropReturn (hw : '\n' ∉ w) :
    lineRest (w ++ '\n' :: cs) = Text.dropReturn w := by
  unfold Text.dropReturn
  split
  · next hr =>
    obtain ⟨w, rfl⟩ := List.getLast?_eq_some_iff.1 hr
    rw [List.dropLast_concat, List.append_assoc]
    exact lineRest_return fun h => hw (List.mem_append_left _ h)
  · next hr => rw [lineRest_append hw hr, lineRest, List.append_nil]

/-- **The lines of a text are its first line and those behind it.** -/
theorem lines_eq_cons (h : cs ≠ []) : Text.lines cs = lineRest cs :: Text.lines (nextLines cs) := by
  unfold Text.lines
  by_cases hn : '\n' ∈ cs
  · obtain ⟨w, rest, rfl, hw⟩ := List.eq_append_cons_of_mem hn
    have hsplit : (w ++ '\n' :: rest).splitOn '\n' = w :: rest.splitOn '\n' :=
      List.splitOnP_append_cons_of_forall_mem
        (fun c hc => beq_false_of_ne fun h : c = '\n' => hw (h ▸ hc)) _ rfl _
    -- only the last line is dropped if it is empty, and this is not the last
    obtain ⟨line, lines, hrest⟩ := List.exists_cons_of_ne_nil (List.splitOn_ne_nil '\n' rest)
    rw [lineRest_eq_dropReturn hw, nextLines_append hw, nextLines, hsplit, hrest]
    simp
  · rw [(lineRest_eq_self hn).1, (lineRest_eq_self hn).2, List.splitOn_eq_singleton hn]
    simp [h]

/-! ## Going on with a text -/

/-- The tokens of a text of which everything up to a position was scanned, with the tokens that were
read. -/
def resume (pos : Position) (comment : Option Position) (tokens : Array Token) (cs : List Char) :
    Except LexicalError (List Token) := do
  let found := Scanner.run pos.row { rest := lineRest cs, col := pos.col, comment, tokens }
  let comment ← found.result
  let s ← (Text.lines (nextLines cs)).foldlM Lexer.scan
    { row := pos.row + 1, comment, tokens := found.tokens }
  s.finish

variable {pos p : Position} {comment : Option Position} {tokens : Array Token}

/-- The scan goes on in the same way from two places of a line if it does so on the line. -/
theorem resume_eq {row col col' : Nat} {comment' : Option Position} {tokens' : Array Token}
    {cs' : List Char}
    (hrun : Scanner.run row { rest := lineRest cs, col, comment, tokens }
      = Scanner.run row
          { rest := lineRest cs', col := col', comment := comment', tokens := tokens' })
    (hnext : nextLines cs = nextLines cs') :
    resume ⟨row, col⟩ comment tokens cs = resume ⟨row, col'⟩ comment' tokens' cs' := by
  unfold resume
  rw [hrun, hnext]

/-- A line is scanned from its beginning. Inside a comment it must begin with `*`. -/
theorem foldlM_scan_eq_resume {row : Nat}
    (h : comment = none ∨ Spacer.BeginsWithStar (lineRest cs)) :
    ((Text.lines cs).foldlM Lexer.scan { row, comment, tokens } >>= Lexer.finish)
      = resume ⟨row, 0⟩ comment tokens cs := by
  by_cases hcs : cs = []
  · subst hcs
    unfold resume
    rw [Scanner.run_of_rest_eq_nil rfl]
    simp [nextLines, Text.lines_nil, Lexer.finish, pure, bind, Except.pure, Except.bind]
  · have hline : scanLine row comment (lineRest cs)
        = Scanner.run row { rest := lineRest cs, col := 0, comment, tokens := #[] } := by
      unfold scanLine
      rw [if_neg]
      rcases h with rfl | h
      · simp
      · simp [show _ = _ from h]
    -- the line is scanned on its own, and its tokens are then put behind those of the lines before
    have hbehind := Scanner.run_behind row tokens
      { rest := lineRest cs, col := 0, comment, tokens := #[] }
    rw [Array.append_empty] at hbehind
    unfold resume
    rw [hbehind, lines_eq_cons hcs, List.foldlM_cons, Lexer.scan, hline]
    dsimp only
    cases (Scanner.run row { rest := lineRest cs, col := 0, comment, tokens := #[] }).result with
    | error e => rfl
    | ok comment => rfl

/-- **The tokens of a text** are those that a scan finds from its beginning. -/
theorem ofSource_eq_resume (source : String) :
    ofSource source = resume ⟨0, 0⟩ none #[] source.toList :=
  foldlM_scan_eq_resume (.inl rfl)

/-- At the end of the text the tokens are those that were read. -/
theorem resume_nil : resume pos none tokens [] = .ok tokens.toList := by
  unfold resume
  rw [Scanner.run_of_rest_eq_nil rfl]
  rfl

/-- Behind a line feed the next line is scanned from its beginning. -/
theorem resume_newline (h : comment = none ∨ Spacer.BeginsWithStar (lineRest cs)) :
    resume pos comment tokens ('\n' :: cs) = resume (pos.next '\n') comment tokens cs := by
  refine Eq.trans ?_ (foldlM_scan_eq_resume h)
  unfold resume
  rw [Scanner.run_of_rest_eq_nil rfl]
  rfl

/-- A carriage return before a line feed is never looked at. -/
theorem resume_return : resume pos comment tokens ('\r' :: '\n' :: cs)
    = resume (pos.next '\r') comment tokens ('\n' :: cs) := by
  refine resume_eq ?_ rfl
  rw [Scanner.run_of_rest_eq_nil rfl, Scanner.run_of_rest_eq_nil rfl]

/-! ## Gaps -/

/-- A pass over characters that cannot belong to the end of the line. -/
theorem resume_of_pass {col : Nat} {comment' : Option Position} {tokens' : Array Token}
    (hw : '\n' ∉ w) (hr : w.getLast? ≠ some '\r')
    (hpass : Scanner.pass pos.row { rest := w ++ lineRest cs, col := pos.col, comment, tokens }
      = .more { rest := lineRest cs, col, comment := comment', tokens := tokens' }) :
    resume pos comment tokens (w ++ cs) = resume ⟨pos.row, col⟩ comment' tokens' cs := by
  refine resume_eq ?_ (nextLines_append hw)
  rw [lineRest_append hw hr]
  exact Scanner.run_of_more hpass

/-- A blank is skipped. -/
theorem resume_blank (hc : Text.isBlank c) (hn : c ≠ '\n') :
    resume pos none tokens (c :: cs) = resume (pos.next c) none tokens cs := by
  -- a carriage return is a blank, but before a line feed it is no part of the line
  by_cases hr : c = '\r' ∧ cs.head? = some '\n'
  · obtain ⟨rfl, hhead⟩ := hr
    obtain ⟨cs, rfl⟩ := List.head?_eq_some_iff.1 hhead
    exact resume_return
  · rw [Position.next, if_neg hn]
    refine resume_eq ?_ (nextLines_cons hn)
    rw [lineRest_cons hn fun h hhead => hr ⟨h, hhead⟩]
    refine Scanner.run_of_more ?_
    rw [Scanner.pass_cons, if_pos hc]
    · rintro rfl
      cases hc
    · rintro rfl
      cases hc

/-- A comment up to the end of the line is skipped with the line feed behind it. -/
theorem resume_lineComment {text : List Char} (ht : '\n' ∉ text) :
    resume pos none tokens ('/' :: '/' :: (text ++ '\n' :: cs))
      = resume ⟨pos.row + 1, 0⟩ none tokens cs := by
  have hrest : lineRest ('/' :: '/' :: (text ++ '\n' :: cs))
      = '/' :: '/' :: lineRest (text ++ '\n' :: cs) :=
    lineRest_append (w := ['/', '/']) (by decide) (by decide)
  have hnext : nextLines ('/' :: '/' :: (text ++ '\n' :: cs)) = cs :=
    (nextLines_append (w := ['/', '/']) (by decide)).trans (nextLines_append ht)
  refine Eq.trans ?_ (foldlM_scan_eq_resume (.inl rfl))
  unfold resume
  rw [hrest, hnext, Scanner.run_of_done rfl]
  rfl

/-- A block comment is entered. -/
theorem resume_openComment : resume pos none tokens ('/' :: '*' :: cs)
    = resume (pos.after ['/', '*']) (some pos) tokens cs :=
  resume_of_pass (w := ['/', '*']) (by decide) (by decide) rfl

/-- A block comment is left at its end. -/
theorem resume_closeComment : resume pos (some p) tokens ('*' :: '/' :: cs)
    = resume (pos.after ['*', '/']) none tokens cs :=
  resume_of_pass (w := ['*', '/']) (by decide) (by decide) rfl

/-- A character of a comment is skipped unless the comment ends with it. -/
theorem resume_inComment (hc : c ≠ '\n') (hstar : c = '*' → cs.head? ≠ some '/') :
    resume pos (some p) tokens (c :: cs) = resume (pos.next c) (some p) tokens cs := by
  by_cases hr : c = '\r' ∧ cs.head? = some '\n'
  · obtain ⟨rfl, hhead⟩ := hr
    obtain ⟨cs, rfl⟩ := List.head?_eq_some_iff.1 hhead
    exact resume_return
  · rw [Position.next, if_neg hc]
    refine resume_eq ?_ (nextLines_cons hc)
    rw [lineRest_cons hc fun h hhead => hr ⟨h, hhead⟩]
    refine Scanner.run_inComment ?_
    rw [afterComment]
    rintro rest rfl hrest
    exact hstar rfl (head?_of_lineRest (by rw [hrest]; rfl))

end Token

end JackCompiler
