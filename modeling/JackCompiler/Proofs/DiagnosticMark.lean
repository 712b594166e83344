import JackCompiler.Diagnostic
import JackCompiler.Proofs.Diagnosis
import JackCompiler.Proofs.PlainText
/-!
# Where the mark of a diagnostic stands

A diagnostic ends in the source line, behind a gutter with its number, and a mark on a line of its
own. The mark is moved right by the bytes before the place and by a gutter for numbers of four
digits. So it stands under the place exactly if the characters before the place take as many bytes
beyond one each as the number of the line has digits beyond four; under ASCII text in the first 9999
lines it always does.
-/

namespace JackCompiler

namespace Token

variable {cs line : List Char}

theorem length_nextLines (cs : List Char) : (nextLines cs).length ≤ cs.length - 1 := by
  fun_induction nextLines cs with
  | case1 => exact Nat.le_refl _
  | case2 cs => exact Nat.le_refl _
  | case3 c cs _ ih =>
    rw [List.length_cons]
    omega

/-- No line holds a line feed. -/
theorem newline_notMem_of_mem_lines {cs line : List Char} (h : line ∈ Text.lines cs) :
    '\n' ∉ line := by
  by_cases hcs : cs = []
  · rw [hcs, Text.lines_nil] at h
    cases h
  · rw [lines_eq_cons hcs] at h
    rcases List.mem_cons.1 h with rfl | h
    · exact newline_notMem_lineRest cs
    · have hpos := List.length_pos_iff.2 hcs
      have hlength := length_nextLines cs
      exact newline_notMem_of_mem_lines h
termination_by cs.length

/-- A character takes at least one byte. -/
theorem length_le_columns (cs : List Char) : cs.length ≤ columns cs := by
  induction cs with
  | nil => exact Nat.le_refl _
  | cons c cs ih =>
    have hsize := c.utf8Size_pos
    rw [List.length_cons, columns_cons]
    omega

/-- An ASCII character takes one byte. -/
theorem columns_of_ascii (h : ∀ c ∈ cs, c.toNat < 128) : columns cs = cs.length := by
  induction cs with
  | nil => rfl
  | cons c cs ih =>
    have hc : c.toNat < 128 := h c List.mem_cons_self
    have hsize : c.utf8Size = 1 :=
      Char.utf8Size_eq_one_iff.2 (UInt32.le_iff_toNat_le.2 (Nat.le_of_lt_succ hc))
    rw [columns_cons, hsize, ih fun d hd => h d (List.mem_cons_of_mem c hd), List.length_cons]
    omega

end Token

namespace Diagnostic

open Text
open Token (CutAt)

variable {source file printed : String} {e : CompileError} {p : Position}
  {line before rest : List Char}

/-! ## The end of a diagnostic -/

/-- The lines of a printed text as they are shown. A line feed ends each of them. -/
def shownLines (printed : String) : List (List Char) :=
  ((plain printed.toList).splitOn '\n').dropLast

/-- The last lines of the printed text are a source line behind a gutter, and a mark behind a
padding. -/
structure EndsIn (printed : String) (line gutter padding : List Char) : Prop where
  lines : [gutter ++ plain line, padding ++ ['^']] <:+ shownLines printed
  noMark : '^' ∉ padding

/-- The mark stands under the place at which the source line is cut: as many characters stand before
it as before the place, which are those of the gutter and those of the line. -/
def MarksPlace (printed : String) (before rest : List Char) : Prop :=
  ∃ gutter padding, EndsIn printed (before ++ rest) gutter padding ∧
    padding.length = gutter.length + before.length

/-- What stands before the source line. -/
def gutter (row : Nat) : List Char :=
  (" " ++ padLeft 4 (row + 1).repr ++ " | ").toList

/-- What stands before the mark. -/
def padding (col : Nat) : List Char :=
  (spaces 6 ++ "| " ++ spaces col).toList

/-- The gutter and the padding of a printed text are determined by it. -/
theorem EndsIn.unique {g g' d d' : List Char} (h : EndsIn printed line g d)
    (h' : EndsIn printed line g' d') : g = g' ∧ d = d' := by
  have hlines : [g ++ plain line, d ++ ['^']] = [g' ++ plain line, d' ++ ['^']] :=
    (List.suffix_of_suffix_length_le h.lines h'.lines (Nat.le_refl _)).eq_of_length rfl
  simp only [List.cons.injEq, and_true] at hlines
  exact ⟨List.append_cancel_right hlines.1, List.append_cancel_right hlines.2⟩

theorem displays_bar : Displays bar.toList (spaces 6 ++ "|").toList := by
  have hbar : Printed "|".toList := .of_all (by decide)
  simpa [bar] using (printed_spaces 6).displays.append (hbar.displays.coloured .blue)

theorem displays_gutter (row : Nat) :
    Displays (" " ++ coloured .blue (padLeft 4 (row + 1).repr ++ " |") ++ " ").toList
      (gutter row) := by
  have hspace : Printed " ".toList := .of_all (by decide)
  have hbar : Printed " |".toList := .of_all (by decide)
  have hnumber : Printed (padLeft 4 (row + 1).repr ++ " |").toList := by
    simpa [padLeft] using
      ((printed_spaces (4 - (row + 1).repr.length)).append (printed_repr (row + 1))).append hbar
  simpa [gutter] using
    (hspace.displays.append (hnumber.displays.coloured .blue)).append hspace.displays

theorem displays_mark (col : Nat) :
    Displays (bar ++ " " ++ spaces col ++ emphasised .red "^").toList (padding col ++ ['^']) := by
  have hspace : Printed " ".toList := .of_all (by decide)
  have hmark : Printed "^".toList := .of_all (by decide)
  have hpadding := (displays_bar.append hspace.displays).append (printed_spaces col).displays
  simpa [padding] using hpadding.append (hmark.displays.emphasised .red)

/-- **Without its colours, the excerpt is as it is laid out.** -/
theorem shows_excerpt (h : (lines source.toList)[p.row]? = some line) :
    Shows (excerpt source p).toList ((spaces 6 ++ "|").toList
      ++ '\n' :: (gutter p.row ++ plain line ++ '\n' :: (padding p.col ++ ['^', '\n']))) := by
  have hfeed : Shows ['\n'] ['\n'] := shows_self (by decide)
  have hline : sourceLine source p.row = String.ofList line := by
    rw [sourceLine, h]
    rfl
  have hsource := (displays_bar.shows.append hfeed).append
    ((displays_gutter p.row).shows.append (shows_line line))
  simpa [excerpt, hline] using hsource.append ((displays_mark p.col).shows.append hfeed)

theorem toList_render (file source : String) (hp : e.pos? = some p) :
    ∃ head, (render file source e).toList = head ++ ['\n'] ++ (excerpt source p).toList := by
  refine ⟨(headline e ++ spaces 5 ++ coloured .blue "-->" ++ " "
    ++ underlined (file ++ ":" ++ p.text)).toList, ?_⟩
  rw [render, hp]
  simp [location]

/-- Of lines that end in line feeds the last two are the last two. -/
theorem suffix_dropLast_splitOn {a b c : List Char} (hb : '\n' ∉ b) (hc : '\n' ∉ c) :
    [b, c] <:+ ((a ++ '\n' :: (b ++ '\n' :: (c ++ ['\n']))).splitOn '\n').dropLast := by
  have hsplit : (a ++ '\n' :: (b ++ '\n' :: (c ++ ['\n']))).splitOn '\n'
      = (a.splitOn '\n' ++ [b, c]) ++ [[]] := by
    rw [List.splitOn_append_cons_self, List.splitOn_append_cons_self,
      List.splitOn_append_cons_self, List.splitOn_eq_singleton hb, List.splitOn_eq_singleton hc]
    simp
  rw [hsplit, List.dropLast_concat]
  exact List.suffix_append _ _

/-- **A diagnostic with a position ends in the source line and the mark.** -/
theorem endsIn_render (hp : e.pos? = some p) (h : (lines source.toList)[p.row]? = some line) :
    EndsIn (render file source e) line (gutter p.row) (padding p.col) := by
  obtain ⟨head, hrender⟩ := toList_render file source hp
  have hplain : plain (render file source e).toList
      = (plain head ++ '\n' :: (spaces 6 ++ "|").toList)
        ++ '\n' :: ((gutter p.row ++ plain line)
          ++ '\n' :: ((padding p.col ++ ['^']) ++ ['\n'])) := by
    rw [hrender, ((shows_line head).append (shows_excerpt h)).plain_eq]
    simp
  -- The line is any text, but the switches that are taken out of it add no line feed.
  have hline : '\n' ∉ gutter p.row ++ plain line := by
    have hsource := Token.newline_notMem_of_mem_lines (List.mem_of_getElem? h)
    intro hmem
    rcases List.mem_append.1 hmem with hmem | hmem
    · exact (displays_gutter p.row).printed.oneLine.1 hmem
    · exact hsource ((plain_sublist line).subset hmem)
  refine ⟨?_, ?_⟩
  · rw [shownLines, hplain]
    exact suffix_dropLast_splitOn hline (displays_mark p.col).printed.oneLine.1
  · simp [padding, spaces]

/-! ## Columns -/

theorem length_gutter (row : Nat) : (gutter row).length = 8 + ((row + 1).repr.length - 4) := by
  -- For any text in place of the number, so that nothing is computed from its digits.
  have hlength : ∀ s : String,
      (" " ++ padLeft 4 s ++ " | ").toList.length = 8 + (s.length - 4) := by
    intro s
    have hchars : s.toList.length = s.length := String.length_toList
    simp only [padLeft, spaces, String.toList_append, String.toList_ofList, List.length_append,
      List.length_replicate, hchars, show " ".toList.length = 1 from rfl,
      show " | ".toList.length = 3 from rfl]
    omega
  exact hlength _

theorem length_padding (col : Nat) : (padding col).length = 8 + col := by
  simp [padding, spaces]
  omega

/-- **The mark stands under its place exactly if bytes and digits make up for each other**: the
bytes beyond one for each character before the place, and the digits of the line number beyond
four. -/
theorem marksPlace_render_iff (hp : e.pos? = some p) (hcut : CutAt source.toList p before rest) :
    MarksPlace (render file source e) before rest ↔
      columns before - before.length = (p.row + 1).repr.length - 4 := by
  have hends : EndsIn (render file source e) (before ++ rest) (gutter p.row) (padding p.col) :=
    endsIn_render hp hcut.line
  have hcol := hcut.col
  have hle := Token.length_le_columns before
  have hgutter := length_gutter p.row
  have hpadding := length_padding p.col
  -- The printed text determines the gutter and the padding, so only their lengths are left.
  have hsame : MarksPlace (render file source e) before rest ↔
      (padding p.col).length = (gutter p.row).length + before.length := by
    constructor
    · rintro ⟨g, d, hends', hlength⟩
      obtain ⟨hg, hd⟩ := hends'.unique hends
      rwa [hg, hd] at hlength
    · intro hlength
      exact ⟨_, _, hends, hlength⟩
  rw [hsame]
  omega

/-- Behind ASCII text in a line whose number has at most four digits, neither has to be made up
for. -/
theorem marksPlace_render_of_ascii (hp : e.pos? = some p)
    (hcut : CutAt source.toList p before rest) (hrow : p.row < 9999)
    (hascii : ∀ c ∈ before, c.toNat < 128) : MarksPlace (render file source e) before rest := by
  have hdigits : (p.row + 1).repr.length ≤ 4 :=
    (Nat.length_repr_le_iff (by decide)).2 (Nat.succ_lt_succ hrow)
  rw [marksPlace_render_iff hp hcut, Token.columns_of_ascii hascii]
  omega

end Diagnostic

/-! ## Errors of a source -/

open Diagnostic
open Token (CutAt)

/-- The position of an error is a place of the source. -/
theorem exists_cutAt_of_compile {source : String} {labels labels' : Labels} {e : CompileError}
    {p : Position} (h : compile source labels = .error e labels') (hp : e.pos? = some p) :
    ∃ before rest, CutAt source.toList p before rest := by
  rcases fault_or_token_of_compile h hp with
    ⟨e', a, b, -, rfl, hsplit, hfault⟩ | ⟨s, before, rest, -, hcut⟩
  · obtain ⟨before, rest, hcut, -⟩ := hfault.exists_pointsAt
    exact ⟨before, rest, hsplit ▸ hcut⟩
  · exact ⟨before, s.text ++ rest, hcut⟩

/-- **The mark of a diagnostic stands under the reported position up to bytes and digits.** The
position of an error cuts a line of the source, and the diagnostic ends in that line and the mark.
The mark stands under the position exactly if the characters before it take as many bytes beyond one
each as the number of the line has digits beyond four; so it does behind ASCII text in the first
9999 lines. -/
theorem compile_error_marksPlace_iff {source file : String} {labels labels' : Labels}
    {e : CompileError} {p : Position} (h : compile source labels = .error e labels')
    (hp : e.pos? = some p) :
    ∃ before rest, CutAt source.toList p before rest ∧
      EndsIn (render file source e) (before ++ rest) (gutter p.row) (padding p.col) ∧
      (MarksPlace (render file source e) before rest ↔
        columns before - before.length = (p.row + 1).repr.length - 4) ∧
      (p.row < 9999 → (∀ c ∈ before, c.toNat < 128) →
        MarksPlace (render file source e) before rest) := by
  obtain ⟨before, rest, hcut⟩ := exists_cutAt_of_compile h hp
  exact ⟨before, rest, hcut, endsIn_render hp hcut.line, marksPlace_render_iff hp hcut,
    marksPlace_render_of_ascii hp hcut⟩

/-- A number where the body of a class should begin, behind a tabulator on the second line. -/
def strayNumber : String :=
  "class Main\n\t5"

theorem strayNumber_marksPlace :
    compile strayNumber ⟨0⟩
        = .error (.syntactic (.unexpectedToken ⟨.integer 5, ⟨1, 1⟩⟩)) ⟨0⟩ ∧
      ∃ before rest, CutAt strayNumber.toList ⟨1, 1⟩ before rest ∧
        MarksPlace (render "Main.jack" strayNumber
          (.syntactic (.unexpectedToken ⟨.integer 5, ⟨1, 1⟩⟩))) before rest := by
  have hlex : Token.ofSource strayNumber = .ok
      [⟨.keyword .class, ⟨0, 0⟩⟩, ⟨.name "Main", ⟨0, 6⟩⟩, ⟨.integer 5, ⟨1, 1⟩⟩] := by
    decide +kernel
  have h : compile strayNumber ⟨0⟩
      = .error (.syntactic (.unexpectedToken ⟨.integer 5, ⟨1, 1⟩⟩)) ⟨0⟩ := by
    unfold compile Class.ofSource
    rw [hlex]
    rfl
  obtain ⟨before, rest, hcut, -, hmarks, -⟩ := compile_error_marksPlace_iff h rfl
  have hcol : columns before = 1 := hcut.col
  have hbytes : columns before - before.length = 0 := by
    cases before with
    | nil => cases hcol
    | cons c cs =>
      rw [hcol, List.length_cons]
      omega
  exact ⟨h, before, rest, hcut, hmarks.2 hbytes⟩

/-- A number where the body of a class should begin, behind a letter of two bytes. -/
def accentedName : String :=
  "class \u00E9 5"

/-- The mark of its diagnostic stands one character behind the number. -/
theorem accentedName_not_marksPlace :
    compile accentedName ⟨0⟩
        = .error (.syntactic (.unexpectedToken ⟨.integer 5, ⟨0, 9⟩⟩)) ⟨0⟩ ∧
      CutAt accentedName.toList ⟨0, 9⟩ "class \u00E9 ".toList "5".toList ∧
      ¬ MarksPlace (render "Main.jack" accentedName
        (.syntactic (.unexpectedToken ⟨.integer 5, ⟨0, 9⟩⟩)))
        "class \u00E9 ".toList "5".toList := by
  have hlex : Token.ofSource accentedName = .ok
      [⟨.keyword .class, ⟨0, 0⟩⟩, ⟨.name "\u00E9", ⟨0, 6⟩⟩, ⟨.integer 5, ⟨0, 9⟩⟩] := by
    decide +kernel
  have h : compile accentedName ⟨0⟩
      = .error (.syntactic (.unexpectedToken ⟨.integer 5, ⟨0, 9⟩⟩)) ⟨0⟩ := by
    unfold compile Class.ofSource
    rw [hlex]
    rfl
  have hcut : CutAt accentedName.toList ⟨0, 9⟩ "class \u00E9 ".toList "5".toList :=
    ⟨by decide +kernel, by decide⟩
  refine ⟨h, hcut, ?_⟩
  rw [marksPlace_render_iff rfl hcut]
  decide

end JackCompiler
