import JackCompiler.Proofs.Lexing.Resume
import Mathlib.Data.List.Basic
/-!
# The tokens of two texts, one below the other

From one line to the next go only the number of the line and the comment that was left open. So when
a text has been scanned and no comment is open, a second text below it is scanned as if it stood
alone, only further down: what the scan does to a line it does further down as well
(`scanLine_down`). An error ends the scan, and what stands below it does not matter.
-/

namespace JackCompiler

namespace Token

open LexicalError (downResult)

/-! ## Many lines -/

namespace Lexer

/-- The scan of a text that stands `k` lines further down, below lines with the given tokens. -/
def below (k : Nat) (before : Array Token) (s : Lexer) : Lexer where
  row := s.row + k
  comment := s.comment.map (Position.down k)
  tokens := before ++ s.tokens.map (Token.down k)

variable {k : Nat} {before : Array Token}

theorem scan_below (s : Lexer) (line : List Char) :
    (s.below k before).scan line = downResult k (below k before) (s.scan line) := by
  obtain ⟨row, comment, tokens⟩ := s
  unfold scan below
  dsimp only
  rw [scanLine_down]
  cases h : (scanLine row comment line).result with
  | error e => simp [LineScan.below, h, downResult, Except.map]
  | ok comment => simp [LineScan.below, h, downResult, Except.map, Nat.add_right_comm]

theorem foldlM_scan_below (s : Lexer) (lines : List (List Char)) :
    lines.foldlM scan (s.below k before)
      = downResult k (below k before) (lines.foldlM scan s) := by
  induction lines generalizing s with
  | nil => rfl
  | cons line lines ih =>
    rw [List.foldlM_cons, List.foldlM_cons, scan_below]
    cases s.scan line with
    | error e => rfl
    | ok t => exact ih t

theorem finish_below (s : Lexer) :
    (s.below k before).finish
      = downResult k (fun tokens => before.toList ++ tokens.map (Token.down k)) s.finish := by
  obtain ⟨row, comment, tokens⟩ := s
  cases comment <;> simp [finish, below, downResult, LexicalError.down]

theorem row_of_scan {s t : Lexer} {line : List Char} (h : s.scan line = .ok t) :
    t.row = s.row + 1 := by
  unfold scan at h
  dsimp only at h
  cases hr : (scanLine s.row s.comment line).result with
  | error e =>
    rw [hr] at h
    cases h
  | ok comment =>
    rw [hr] at h
    cases h
    rfl

/-- Each line that is scanned is counted. -/
theorem row_of_foldlM_scan {s t : Lexer} {lines : List (List Char)}
    (h : lines.foldlM scan s = .ok t) : t.row = s.row + lines.length := by
  induction lines generalizing s with
  | nil =>
    cases h
    rfl
  | cons line lines ih =>
    rw [List.foldlM_cons] at h
    cases hline : s.scan line with
    | error e =>
      rw [hline] at h
      cases h
    | ok u =>
      rw [hline] at h
      have hrow : u.row = s.row + 1 := row_of_scan hline
      have hrows : t.row = u.row + lines.length := ih h
      rw [List.length_cons]
      omega

/-- Empty lines outside comments have no tokens. -/
theorem foldlM_scan_empty {gap : List (List Char)} (hgap : gap = [] ∨ gap = [[]]) {s : Lexer}
    (hs : s.comment = none) :
    gap.foldlM scan s = .ok { s with row := s.row + gap.length } := by
  obtain ⟨row, comment, tokens⟩ := s
  obtain rfl : comment = none := hs
  rcases hgap with rfl | rfl
  · rfl
  · rw [List.foldlM_cons]
    unfold scan scanLine
    dsimp only
    rw [if_neg (by simp), Scanner.run_of_rest_eq_nil rfl]
    simp [Except.map, bind, Except.bind, pure, Except.pure]

theorem finish_eq_ok {s : Lexer} {tokens : List Token} :
    s.finish = .ok tokens ↔ s.comment = none ∧ s.tokens.toList = tokens := by
  obtain ⟨row, comment, found⟩ := s
  cases comment <;> simp [finish]

/-- At the end of the lines only an open comment is an error. -/
theorem finish_eq_error {s : Lexer} {e : LexicalError} (h : s.finish = .error e) :
    ∃ pos, e = .unterminatedComment pos := by
  obtain ⟨row, comment, found⟩ := s
  cases comment with
  | none => cases h
  | some pos => exact ⟨pos, (Except.error.inj h).symm⟩

end Lexer

/-! ## Lines of two texts -/

theorem lines_append_cons {w cs : List Char} (hw : '\n' ∉ w) :
    Text.lines (w ++ '\n' :: cs) = Text.dropReturn w :: Text.lines cs := by
  rw [lines_eq_cons (by simp), lineRest_eq_dropReturn hw, nextLines_append hw, nextLines]

/-- **The lines of a text go on behind those of the text above it.** Between them stands an empty
line if the upper text is empty or ends in a line feed. -/
theorem exists_lines_append {a b : List Char} (ha : a.getLast? ≠ some '\r') :
    ∃ gap, (gap = [] ∨ gap = [[]]) ∧
      Text.lines (a ++ '\n' :: b) = Text.lines a ++ gap ++ Text.lines b ∧
      (Text.lines a ++ gap).length = a.count '\n' + 1 := by
  by_cases hn : '\n' ∈ a
  · obtain ⟨w, rest, rfl, hw⟩ := List.eq_append_cons_of_mem hn
    have hrest : rest.getLast? ≠ some '\r' := by
      intro h
      exact ha (by simp [List.getLast?_append, List.getLast?_cons, h])
    obtain ⟨gap, hgap, hlines, hlength⟩ := exists_lines_append (a := rest) (b := b) hrest
    refine ⟨gap, hgap, ?_, ?_⟩
    · rw [List.append_assoc, List.cons_append, lines_append_cons hw, lines_append_cons hw, hlines]
      rfl
    · rw [lines_append_cons hw, List.cons_append, List.length_cons, hlength, List.count_append,
        List.count_cons_self, List.count_eq_zero.2 hw]
      omega
  · have hreturn : Text.dropReturn a = a := by
      rw [Text.dropReturn, if_neg ha]
    have hcount : a.count '\n' = 0 := List.count_eq_zero.2 hn
    rw [lines_append_cons hn, hreturn, hcount]
    by_cases hnil : a = []
    · subst hnil
      exact ⟨[[]], .inr rfl, by simp [Text.lines_nil], by simp [Text.lines_nil]⟩
    · have hone : Text.lines a = [a] := by
        rw [lines_eq_cons hnil, (lineRest_eq_self hn).1, (lineRest_eq_self hn).2, Text.lines_nil]
      exact ⟨[], .inl rfl, by simp [hone], by simp [hone]⟩
termination_by a.length
decreasing_by
  subst_vars
  simp only [List.length_append, List.length_cons]
  omega

/-! ## Two texts -/

/-- The scan of the lines of a text, before it is known whether they are the last. -/
def scanned (cs : List Char) : Except LexicalError Lexer :=
  (Text.lines cs).foldlM Lexer.scan Lexer.start

theorem ofSource_eq (source : String) : ofSource source = scanned source.toList >>= Lexer.finish :=
  rfl

/-- An error in the upper text is an error of the whole. -/
theorem scanned_of_error {a b : List Char} {e : LexicalError} (ha : a.getLast? ≠ some '\r')
    (h : scanned a = .error e) : scanned (a ++ '\n' :: b) = .error e := by
  obtain ⟨gap, -, hlines, -⟩ := exists_lines_append (b := b) ha
  unfold scanned at h ⊢
  rw [hlines, List.append_assoc, List.foldlM_append, h]
  rfl

/-- Below a text that leaves no comment open, the scan begins anew. -/
theorem scanned_of_ok {a b : List Char} {s : Lexer} (ha : a.getLast? ≠ some '\r')
    (h : scanned a = .ok s) (hs : s.comment = none) :
    scanned (a ++ '\n' :: b)
      = downResult (a.count '\n' + 1) (Lexer.below (a.count '\n' + 1) s.tokens) (scanned b) := by
  obtain ⟨gap, hgap, hlines, hlength⟩ := exists_lines_append (b := b) ha
  have hrow := Lexer.row_of_foldlM_scan h
  have hupper : (Text.lines a ++ gap).foldlM Lexer.scan Lexer.start
      = .ok (Lexer.start.below (a.count '\n' + 1) s.tokens) := by
    have hstart : { s with row := s.row + gap.length }
        = Lexer.start.below (a.count '\n' + 1) s.tokens := by
      obtain ⟨row, comment, tokens⟩ := s
      obtain rfl : comment = none := hs
      obtain rfl : row = 0 + (Text.lines a).length := hrow
      rw [List.length_append] at hlength
      simp [Lexer.below, Lexer.start, hlength]
    rw [List.foldlM_append, show (Text.lines a).foldlM Lexer.scan Lexer.start = .ok s from h]
    exact (Lexer.foldlM_scan_empty hgap hs).trans (congrArg Except.ok hstart)
  unfold scanned
  rw [hlines, List.foldlM_append, hupper]
  exact Lexer.foldlM_scan_below Lexer.start (Text.lines b)

theorem ofSource_of_ok {a b : String} {s : Lexer} (ha : a.toList.getLast? ≠ some '\r')
    (h : scanned a.toList = .ok s) (hs : s.comment = none) :
    ofSource (a ++ "\n" ++ b) = downResult (a.toList.count '\n' + 1)
      (fun tb => s.tokens.toList ++ tb.map (Token.down (a.toList.count '\n' + 1)))
      (ofSource b) := by
  have htext : (a ++ "\n" ++ b).toList = a.toList ++ '\n' :: b.toList := by simp
  rw [ofSource_eq, ofSource_eq, htext, scanned_of_ok ha h hs]
  cases scanned b.toList with
  | error e => rfl
  | ok t => exact Lexer.finish_below t

/-- **Two texts are scanned one after the other.** The lower text is scanned as if it stood alone,
only further down, when the upper one has tokens; and an error of the upper text is that of the
whole, unless a comment was open at its end. -/
theorem ofSource_below (a b : String) (ha : a.toList.getLast? ≠ some '\r') :
    (∀ ta, ofSource a = .ok ta →
      (∀ tb, ofSource b = .ok tb → ofSource (a ++ "\n" ++ b)
        = .ok (ta ++ tb.map (Token.down (a.toList.count '\n' + 1)))) ∧
      ∀ e, ofSource b = .error e → ofSource (a ++ "\n" ++ b)
        = .error (e.down (a.toList.count '\n' + 1))) ∧
    ∀ e, ofSource a = .error e → (∀ pos, e ≠ .unterminatedComment pos) →
      ofSource (a ++ "\n" ++ b) = .error e := by
  rw [ofSource_eq a]
  cases h : scanned a.toList with
  | error e =>
    have htext : (a ++ "\n" ++ b).toList = a.toList ++ '\n' :: b.toList := by simp
    have hwhole : ofSource (a ++ "\n" ++ b) = .error e := by
      rw [ofSource_eq, htext, scanned_of_error ha h]
      rfl
    refine ⟨fun ta hta => ?_, fun e' he _ => ?_⟩
    · cases hta
    · cases he
      exact hwhole
  | ok s =>
    refine ⟨fun ta hta => ?_, fun e he hne => ?_⟩
    · obtain ⟨hs, rfl⟩ := Lexer.finish_eq_ok.1 hta
      rw [ofSource_of_ok ha h hs]
      refine ⟨fun tb htb => ?_, fun e he => ?_⟩
      · rw [htb]
        rfl
      · rw [he]
        rfl
    · obtain ⟨pos, rfl⟩ := Lexer.finish_eq_error he
      exact absurd rfl (hne pos)

/-- Two words around a comment that ends in the second of two lines. -/
def upperText : String := "let /* a\n* b */ x\n"

/-- The tokens of `upperText`. -/
def upperTokens : List Token :=
  [⟨.keyword .let, ⟨0, 0⟩⟩, ⟨.name "x", ⟨1, 7⟩⟩]

theorem ofSource_below_upperText :
    ofSource upperText = .ok upperTokens ∧
    ofSource (upperText ++ "\n" ++ "= 1") = .ok (upperTokens ++
      [⟨.symbol '=', ⟨3, 0⟩⟩, ⟨.integer 1, ⟨3, 2⟩⟩]) ∧
    ofSource (upperText ++ "\n" ++ "= \"1") = .error (.unterminatedString ⟨3, 2⟩) ∧
    ofSource ("x 1x" ++ "\n" ++ "/*") = .error (.invalidInteger ⟨0, 2⟩ "1x") := by
  have hend : upperText.toList.getLast? ≠ some '\r' := by decide +kernel
  have hupper : ofSource upperText = .ok upperTokens := by decide +kernel
  have hlower : ofSource "= 1" = .ok [⟨.symbol '=', ⟨0, 0⟩⟩, ⟨.integer 1, ⟨0, 2⟩⟩] := by
    decide +kernel
  have hopen : ofSource "= \"1" = .error (.unterminatedString ⟨0, 2⟩) := by decide +kernel
  have hwrong : ofSource "x 1x" = .error (.invalidInteger ⟨0, 2⟩ "1x") := by decide +kernel
  exact ⟨hupper, ((ofSource_below upperText "= 1" hend).1 _ hupper).1 _ hlower,
    ((ofSource_below upperText "= \"1" hend).1 _ hupper).2 _ hopen,
    (ofSource_below "x 1x" "/*" (by decide +kernel)).2 _ hwrong (by simp)⟩

end Token

end JackCompiler
