import JackCompiler.Proofs.Lexing.RoundTrip
/-!
# Places of a text and of its lines

A place of a text is what comes before it. Its position names a line, and a column of that line in
bytes; what stands on the line from that column on is what comes next in the text, up to the end of
the line (`exists_cutAt`). Positions are ordered as the places are in the text.
-/

namespace JackCompiler

namespace Position

instance : LE Position where
  le p q := p.row < q.row ∨ p.row = q.row ∧ p.col ≤ q.col

instance : LT Position where
  lt p q := p.row < q.row ∨ p.row = q.row ∧ p.col < q.col

theorem le_def {p q : Position} : p ≤ q ↔ p.row < q.row ∨ p.row = q.row ∧ p.col ≤ q.col := Iff.rfl

theorem lt_def {p q : Position} : p < q ↔ p.row < q.row ∨ p.row = q.row ∧ p.col < q.col := Iff.rfl

protected theorem le_refl (p : Position) : p ≤ p :=
  .inr ⟨rfl, Nat.le_refl _⟩

protected theorem le_trans {p q r : Position} (hpq : p ≤ q) (hqr : q ≤ r) : p ≤ r := by
  rw [le_def] at *
  omega

theorem le_next (p : Position) (c : Char) : p ≤ p.next c := by
  unfold next
  split
  · exact .inl (Nat.lt_succ_self _)
  · exact .inr ⟨rfl, Nat.le_add_right _ _⟩

/-- What stands later in a text has no smaller position. -/
theorem le_after (p : Position) (cs : List Char) : p ≤ p.after cs := by
  induction cs generalizing p with
  | nil => exact p.le_refl
  | cons c cs ih => exact Position.le_trans (p.le_next c) (ih (p.next c))

/-- A text that begins one line further down ends one line further down. -/
theorem after_down (p : Position) (cs : List Char) :
    Position.after ⟨p.row + 1, p.col⟩ cs = ⟨(p.after cs).row + 1, (p.after cs).col⟩ := by
  induction cs generalizing p with
  | nil => rfl
  | cons c cs ih =>
    have hnext : Position.next ⟨p.row + 1, p.col⟩ c = ⟨(p.next c).row + 1, (p.next c).col⟩ := by
      unfold next
      split <;> rfl
    unfold after at ih ⊢
    rw [List.foldl_cons, List.foldl_cons, hnext, ih]

end Position

namespace Token

variable {a b cs w : List Char}

/-! ## The rest of a line -/

theorem newline_notMem_lineRest (cs : List Char) : '\n' ∉ lineRest cs := by
  fun_induction lineRest cs with
  | case1 => simp
  | case2 => simp
  | case3 => simp
  | case4 c cs hn _ ih =>
    have hc : '\n' ≠ c := fun h => hn h.symm
    simp [hc, ih]

/-- What stands next on the line stands next in the text, and behind it the line goes on. -/
theorem eq_append_of_lineRest {rest : List Char} (h : lineRest cs = w ++ rest) :
    ∃ more, cs = w ++ more ∧ lineRest more = rest := by
  induction w generalizing cs with
  | nil => exact ⟨cs, rfl, h⟩
  | cons c w ih =>
    unfold lineRest at h
    split at h
    · cases h
    · cases h
    · cases h
    · obtain ⟨rfl, hrest⟩ := List.cons.inj h
      obtain ⟨more, rfl, hmore⟩ := ih hrest
      exact ⟨more, rfl, hmore⟩

/-- Before something that stands on the line nothing belongs to its end. -/
theorem lineRest_append_of_ne_nil (hw : '\n' ∉ w) (hb : lineRest b ≠ []) :
    lineRest (w ++ b) = w ++ lineRest b := by
  induction w with
  | nil => rfl
  | cons c w ih =>
    obtain ⟨hc, hw⟩ := List.ne_and_not_mem_of_not_mem_cons hw
    have hhead : (w ++ b).head? ≠ some '\n' := by
      cases w with
      | nil =>
        intro hh
        obtain ⟨cs, rfl⟩ := List.head?_eq_some_iff.1 hh
        exact hb rfl
      | cons d w => simpa using Ne.symm (List.ne_and_not_mem_of_not_mem_cons hw).1
    rw [List.cons_append, lineRest_cons (Ne.symm hc) fun _ => hhead, ih hw, List.cons_append]

/-! ## Lines and positions -/

/-- The line that a position names, cut at its column: `before` stands on it before the position,
and `rest` behind. -/
structure CutAt (cs : List Char) (p : Position) (before rest : List Char) : Prop where
  line : (Text.lines cs)[p.row]? = some (before ++ rest)
  col : columns before = p.col

/-- The line of a place, if nothing that stands before it on the line belongs to its end. -/
theorem exists_cutAt_of_suffix {a b : List Char}
    (h : ∀ w, w <:+ a → '\n' ∉ w → w ++ b ≠ [] ∧ lineRest (w ++ b) = w ++ lineRest b) :
    ∃ before, CutAt (a ++ b) (Position.after ⟨0, 0⟩ a) before (lineRest b) ∧
      before <:+ a ∧ '\n' ∉ before := by
  by_cases hn : '\n' ∈ a
  · obtain ⟨w, rest, rfl, hw⟩ := List.eq_append_cons_of_mem hn
    have hlines : Text.lines (w ++ '\n' :: rest ++ b)
        = lineRest (w ++ '\n' :: rest ++ b) :: Text.lines (rest ++ b) := by
      rw [lines_eq_cons (by simp), List.append_assoc, nextLines_append hw, List.cons_append,
        nextLines]
    have hpos : Position.after ⟨0, 0⟩ (w ++ '\n' :: rest)
        = ⟨(Position.after ⟨0, 0⟩ rest).row + 1, (Position.after ⟨0, 0⟩ rest).col⟩ := by
      rw [after_append, after_of_notMem hw, ← Position.after_down]
      rfl
    have hsuffix : rest <:+ w ++ '\n' :: rest :=
      (List.suffix_cons _ _).trans (List.suffix_append _ _)
    -- the place is on a later line, so the first one does not matter
    obtain ⟨before, hcut, hbefore, hline⟩ :=
      exists_cutAt_of_suffix (a := rest) (b := b) fun v hv => h v (hv.trans hsuffix)
    refine ⟨before, ⟨?_, ?_⟩, hbefore.trans hsuffix, hline⟩
    · rw [hlines, hpos, List.getElem?_cons_succ]
      exact hcut.line
    · rw [hpos]
      exact hcut.col
  · obtain ⟨hne, hline⟩ := h a (List.suffix_refl a) hn
    refine ⟨a, ⟨?_, ?_⟩, List.suffix_refl a, hn⟩
    · rw [after_of_notMem hn, lines_eq_cons hne, hline]
      rfl
    · rw [after_of_notMem hn, Nat.zero_add]
termination_by a.length
decreasing_by
  subst_vars
  simp only [List.length_append, List.length_cons]
  omega

/-- **What stands at a place of a text stands on the line that its position names.** -/
theorem exists_cutAt (hb : lineRest b ≠ []) :
    ∃ before, CutAt (a ++ b) (Position.after ⟨0, 0⟩ a) before (lineRest b) := by
  have hsuffix : ∀ w, w <:+ a → '\n' ∉ w → w ++ b ≠ [] ∧ lineRest (w ++ b) = w ++ lineRest b := by
    refine fun w _ hw => ⟨?_, lineRest_append_of_ne_nil hw hb⟩
    intro hnil
    obtain ⟨rfl, rfl⟩ := List.append_eq_nil_iff.1 hnil
    exact hb rfl
  obtain ⟨before, hcut, -⟩ := exists_cutAt_of_suffix hsuffix
  exact ⟨before, hcut⟩

/-- Characters of one line stand on the line that their position names. -/
theorem exists_cutAt_append (hne : w ≠ []) (hw : '\n' ∉ w) (hr : w.getLast? ≠ some '\r') :
    ∃ before rest, CutAt (a ++ (w ++ b)) (Position.after ⟨0, 0⟩ a) before (w ++ rest) := by
  have hline : lineRest (w ++ b) = w ++ lineRest b := lineRest_append hw hr
  obtain ⟨before, hcut⟩ := exists_cutAt (a := a) (b := w ++ b) (by simp [hline, hne])
  rw [hline] at hcut
  exact ⟨before, lineRest b, hcut⟩

/-- A line begins behind a line feed. -/
theorem getElem?_lines_newline (hb : b ≠ []) :
    (Text.lines (a ++ '\n' :: b))[(Position.after ⟨0, 0⟩ (a ++ ['\n'])).row]?
      = some (lineRest b) := by
  have hempty : ∀ w, w <:+ a ++ ['\n'] → '\n' ∉ w → w = [] := by
    intro w hw hn
    rcases List.suffix_concat_iff.1 hw with rfl | ⟨v, rfl, -⟩
    · rfl
    · exact absurd (by simp) hn
  have hsuffix : ∀ w, w <:+ a ++ ['\n'] → '\n' ∉ w →
      w ++ b ≠ [] ∧ lineRest (w ++ b) = w ++ lineRest b := by
    intro w hw hn
    obtain rfl := hempty w hw hn
    exact ⟨hb, rfl⟩
  obtain ⟨before, hcut, hbefore, hline⟩ := exists_cutAt_of_suffix hsuffix
  obtain rfl := hempty before hbefore hline
  simpa using hcut.line

end Token

end JackCompiler
