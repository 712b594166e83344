import JackCompiler.Proofs.CodeEncoding
/-!
# The code of two texts, one below the other

Code text is read line by line, and nothing goes from one line to the next but the number of the
line. So two texts with a line feed between them are read one after the other, the lower one with
its lines counted on. The last line of the upper text is the one that the line feed changes: it is a
line now even if it is empty, and a carriage return at its end is no part of it any more. Neither
makes a difference to the code, because an empty line has none and a carriage return is a blank.
-/

namespace JackCompiler

namespace Text

/-! ## Lines of two texts -/

/-- The lines of a text go on behind those of the text above it, which all end in a line feed. -/
theorem lines_append (a b : List Char) :
    lines (a ++ '\n' :: b) = (a.splitOn '\n').map dropReturn ++ lines b := by
  have hne : b.splitOn '\n' ≠ [] := List.splitOn_ne_nil '\n' b
  unfold lines
  dsimp only
  rw [List.splitOn_append_cons_self, List.dropLast_append_of_ne_nil hne,
    List.getLast?_append_of_ne_nil _ hne, List.map_append, List.append_assoc]

theorem length_splitOn_newline (cs : List Char) :
    (cs.splitOn '\n').length = cs.count '\n' + 1 := by
  induction cs with
  | nil => rfl
  | cons c cs ih =>
    rw [List.splitOn_cons_eq_if_modifyHead, List.count_cons]
    split
    · rw [List.length_cons, ih]
    · rw [List.length_modifyHead, ih]

theorem trim_concat_blank {c : Char} (hc : isBlank c) (cs : List Char) :
    trim (cs ++ [c]) = trim cs := by
  change ((cs ++ [c]).dropWhile isBlank).rdropWhile isBlank
    = (cs.dropWhile isBlank).rdropWhile isBlank
  rw [List.dropWhile_append]
  split
  · next hempty =>
    rw [List.isEmpty_iff.1 hempty, List.dropWhile_cons_of_pos hc]
    rfl
  · exact List.rdropWhile_concat_pos isBlank _ c hc

end Text

namespace Code

/-! ## A carriage return at the end of a line -/

theorem beforeComment_concat_return (line : List Char) :
    beforeComment (line ++ ['\r']) = beforeComment line ∨
      beforeComment (line ++ ['\r']) = beforeComment line ++ ['\r'] := by
  induction line with
  | nil => exact .inr rfl
  | cons c line ih =>
    by_cases hc : ∃ rest, c = '/' ∧ line = '/' :: rest
    · obtain ⟨rest, rfl, rfl⟩ := hc
      exact .inl rfl
    · have hline : ∀ rest, c = '/' → line = '/' :: rest → False :=
        fun rest h h' => hc ⟨rest, h, h'⟩
      have hreturn : ∀ rest, c = '/' → line ++ ['\r'] = '/' :: rest → False := by
        intro rest h h'
        cases line with
        | nil => cases h'
        | cons d line => exact hline line h (by rw [(List.cons.inj h').1])
      rw [List.cons_append, beforeComment_cons hline, beforeComment_cons hreturn]
      exact ih.imp (congrArg (c :: ·)) (congrArg (c :: ·))

/-- **A line is read alike with and without a carriage return at its end.** -/
theorem ofLine_dropReturn (line : List Char) : ofLine (Text.dropReturn line) = ofLine line := by
  unfold Text.dropReturn
  split
  · next hreturn =>
    obtain ⟨line, rfl⟩ := List.getLast?_eq_some_iff.1 hreturn
    have htrim : Text.trim (beforeComment (line ++ ['\r'])) = Text.trim (beforeComment line) := by
      rcases beforeComment_concat_return line with h | h
      · rw [h]
      · rw [h, Text.trim_concat_blank (by decide)]
    rw [List.dropLast_concat, ofLine, ofLine, htrim]
  · rfl

/-! ## Reading lines -/

/-- The code of some lines, or the first error in them; the first line has the given number. -/
def ofLines (row : Nat) : List (List Char) → Except LineError Code
  | [] => .ok []
  | line :: rest => do
    let code ← (ofLine line).mapError (LineError.mk row)
    let others ← ofLines (row + 1) rest
    return code ++ others

theorem ofText_eq_ofLines (s : String) : ofText s = ofLines 0 (Text.lines s.toList) := by
  have hlines : ∀ (lines : List (List Char)) (row : Nat),
      ((lines.zipIdx row).mapM fun p => (ofLine p.1).mapError (LineError.mk p.2))
        >>= (fun codes => pure codes.flatten) = ofLines row lines := by
    intro lines
    induction lines with
    | nil => exact fun row => rfl
    | cons line lines ih =>
      intro row
      rw [List.zipIdx_cons, List.mapM_cons, ofLines, ← ih (row + 1)]
      simp
  exact hlines _ 0

/-- **Lines are read one after the other.** -/
theorem ofLines_append (row : Nat) (upper lower : List (List Char)) :
    ofLines row (upper ++ lower) = do
      let above ← ofLines row upper
      let below ← ofLines (row + upper.length) lower
      return above ++ below := by
  induction upper generalizing row with
  | nil =>
    change ofLines row lower = (do return [] ++ (← ofLines row lower))
    cases ofLines row lower <;> rfl
  | cons line upper ih =>
    have hrow : row + (line :: upper).length = row + 1 + upper.length := by
      rw [List.length_cons]
      omega
    rw [List.cons_append, ofLines, ofLines, ih, hrow]
    simp only [bind_assoc, pure_bind, List.append_assoc]

/-- The error `k` lines further down. -/
def LineError.down (k : Nat) (e : LineError) : LineError :=
  { e with line := k + e.line }

/-- Further down, lines are read alike. -/
theorem ofLines_down (k row : Nat) (lines : List (List Char)) :
    ofLines (k + row) lines = (ofLines row lines).mapError (LineError.down k) := by
  induction lines generalizing row with
  | nil => rfl
  | cons line lines ih =>
    rw [ofLines, ofLines, Nat.add_assoc, ih]
    cases ofLine line with
    | error cause => rfl
    | ok code => cases ofLines (row + 1) lines <;> rfl

/-- The code of a text is the same with a line feed behind it. -/
theorem ofLines_splitOn (row : Nat) (cs : List Char) :
    ofLines row ((cs.splitOn '\n').map Text.dropReturn) = ofLines row (Text.lines cs) := by
  obtain ⟨front, last, hpieces⟩ :=
    (List.eq_nil_or_concat' (cs.splitOn '\n')).resolve_left (List.splitOn_ne_nil '\n' cs)
  have hlast : ∀ row, ofLines row [Text.dropReturn last]
      = ofLines row ([last].filter fun line => !line.isEmpty) := by
    intro row
    cases last with
    | nil => rfl
    | cons c last =>
      rw [List.filter_cons_of_pos rfl, ofLines, ofLines, ofLine_dropReturn]
      rfl
  unfold Text.lines
  dsimp only
  rw [hpieces, List.map_append, List.dropLast_concat, List.getLast?_concat, ofLines_append,
    ofLines_append, List.map_singleton, hlast]
  rfl

/-- **Two texts are read one after the other.** The code of the lower text follows that of the upper
one, and an error in it is counted on from the lines of the upper one; an error in the upper text is
the error of both. -/
theorem ofText_below (a b : String) :
    ofText (a ++ "\n" ++ b) = do
      let above ← ofText a
      let below ← (ofText b).mapError (LineError.down (a.toList.count '\n' + 1))
      return above ++ below := by
  have htext : (a ++ "\n" ++ b).toList = a.toList ++ '\n' :: b.toList := by simp
  have hlength : 0 + ((a.toList.splitOn '\n').map Text.dropReturn).length
      = a.toList.count '\n' + 1 + 0 := by
    rw [List.length_map, Text.length_splitOn_newline]
    omega
  rw [ofText_eq_ofLines, ofText_eq_ofLines, ofText_eq_ofLines, htext, Text.lines_append,
    ofLines_append, ofLines_splitOn, hlength, ofLines_down]

end Code

end JackCompiler
