import JackCompiler.Proofs.CodeText
import JackCompiler.Proofs.Fallible
import JackCompiler.Proofs.SourceClass
/-!
# Code text is an exact encoding

What is read from a text has names that are fields: each of them was cut out of a line at its
blanks, from the part of the line before the comment. So code that is read from anything is read
back from its own text, and code with another name in it is read from no text at all, not from its
own either, however its lines may come to be joined or cut.
-/

namespace JackCompiler

namespace Text

/-! ## What is cut out of a line -/

variable {w cs : List Char}

/-- The pieces between separators hold no separator and stand in the list; the first of them is at
its beginning. -/
theorem splitOnP_pieces {α : Type} (p : α → Bool) (xs : List α) :
    ∃ first rest, xs.splitOnP p = first :: rest ∧ first <+: xs ∧ (∀ x ∈ first, p x = false) ∧
      ∀ piece ∈ rest, piece <:+: xs ∧ ∀ x ∈ piece, p x = false := by
  induction xs with
  | nil => exact ⟨[], [], List.splitOnP_nil, List.prefix_rfl, by simp, by simp⟩
  | cons x xs ih =>
    obtain ⟨first, rest, hsplit, hfirst, hplain, hrest⟩ := ih
    have hlift : ∀ piece ∈ rest, piece <:+: x :: xs ∧ ∀ y ∈ piece, p y = false :=
      fun piece hpiece => ⟨List.infix_cons (hrest piece hpiece).1, (hrest piece hpiece).2⟩
    rw [List.splitOnP_cons_eq_if_modifyHead, hsplit]
    by_cases hx : p x
    · rw [if_pos hx]
      refine ⟨[], first :: rest, rfl, List.nil_prefix, by simp, ?_⟩
      exact List.forall_mem_cons.2 ⟨⟨List.infix_cons hfirst.isInfix, hplain⟩, hlift⟩
    · rw [if_neg hx]
      refine ⟨x :: first, rest, rfl, List.cons_prefix_cons.2 ⟨rfl, hfirst⟩, ?_, hlift⟩
      exact List.forall_mem_cons.2 ⟨by simpa using hx, hplain⟩

theorem noBlank_of_mem_fields (h : w ∈ fields cs) : ∀ c ∈ w, isBlank c = false := by
  obtain ⟨first, rest, hsplit, -, hplain, hrest⟩ := splitOnP_pieces isBlank cs
  rw [fields, hsplit] at h
  rcases List.mem_cons.1 (List.mem_filter.1 h).1 with rfl | h
  · exact hplain
  · exact (hrest w h).2

theorem infix_of_mem_fields (h : w ∈ fields cs) : w <:+: cs := by
  obtain ⟨first, rest, hsplit, hfirst, -, hrest⟩ := splitOnP_pieces isBlank cs
  rw [fields, hsplit] at h
  rcases List.mem_cons.1 (List.mem_filter.1 h).1 with rfl | h
  · exact hfirst.isInfix
  · exact (hrest w h).1

end Text

namespace Code

theorem beforeComment_go (seen line : List Char) :
    beforeComment.go seen line = seen.reverse ++ beforeComment line := by
  have hgo : ∀ (line seen : List Char),
      beforeComment.go seen line = seen.reverse ++ beforeComment.go [] line := by
    intro line
    induction line with
    | nil => simp [beforeComment.go]
    | cons c line ih =>
      intro seen
      by_cases hc : ∃ rest, c = '/' ∧ line = '/' :: rest
      · obtain ⟨rest, rfl, rfl⟩ := hc
        simp [beforeComment.go]
      · have hrest : ∀ rest, c = '/' → line = '/' :: rest → False :=
          fun rest h h' => hc ⟨rest, h, h'⟩
        rw [beforeComment.go.eq_3 _ _ _ hrest, beforeComment.go.eq_3 _ _ _ hrest, ih, ih [c]]
        simp
  exact hgo line seen

theorem beforeComment_cons {c : Char} {line : List Char}
    (h : ∀ rest, c = '/' → line = '/' :: rest → False) :
    beforeComment (c :: line) = c :: beforeComment line := by
  rw [beforeComment, beforeComment.go.eq_3 _ _ _ h, beforeComment_go]
  rfl

theorem beforeComment_isPrefix (line : List Char) : beforeComment line <+: line := by
  induction line with
  | nil => exact List.nil_prefix
  | cons c line ih =>
    by_cases hc : ∃ rest, c = '/' ∧ line = '/' :: rest
    · obtain ⟨rest, rfl, rfl⟩ := hc
      exact List.nil_prefix
    · rw [beforeComment_cons fun rest h h' => hc ⟨rest, h, h'⟩]
      exact List.cons_prefix_cons.2 ⟨rfl, ih⟩

/-- **There is no comment before the comment.** -/
theorem noComment_beforeComment (line : List Char) : ¬ ['/', '/'] <:+: beforeComment line := by
  induction line with
  | nil => simp [beforeComment, beforeComment.go]
  | cons c line ih =>
    by_cases hc : ∃ rest, c = '/' ∧ line = '/' :: rest
    · obtain ⟨rest, rfl, rfl⟩ := hc
      simp [beforeComment, beforeComment.go]
    · rw [beforeComment_cons fun rest h h' => hc ⟨rest, h, h'⟩, List.infix_cons_iff]
      rintro (h | h)
      · -- two slashes at the beginning would have begun the comment
        obtain ⟨rfl, hslash⟩ := List.cons_prefix_cons.1 h
        obtain ⟨rest, hrest⟩ := hslash.trans (beforeComment_isPrefix line)
        exact hc ⟨rest, rfl, hrest.symm⟩
      · exact ih h

/-- A field before the comment of a line is a field that no comment cuts. -/
theorem isField_of_mem_fields {line w : List Char} (h : w ∈ Text.fields (beforeComment line)) :
    Text.IsField w where
  ne_nil := Text.ne_nil_of_mem_fields h
  noBlank := Text.noBlank_of_mem_fields h
  noComment hcomment :=
    noComment_beforeComment line (hcomment.trans (Text.infix_of_mem_fields h))

end Code

/-! ## What is read from a line -/

/-- The name in an instruction is one of the fields that it was read from. -/
theorem Instruction.mem_of_ofFields {fields : List String} {i : Instruction}
    (h : ofFields fields = .ok i) : ∀ name ∈ i.name?, name ∈ fields := by
  cases fields with
  | nil => cases h
  | cons first operands =>
    rw [ofFields] at h
    split at h
    · cases h
    · split at h
      case h_1 | h_2 =>
        obtain ⟨g, -, h⟩ := Fallible.bind_eq_ok.1 h
        obtain ⟨n, -, h⟩ := Fallible.bind_eq_ok.1 h
        cases h
        simp [name?]
      case h_3 | h_4 | h_5 | h_8 | h_9 =>
        cases h
        simp [name?]
      case h_6 | h_7 =>
        obtain ⟨n, -, h⟩ := Fallible.bind_eq_ok.1 h
        cases h
        simp [name?]
      case h_10 => cases h

namespace Code

theorem readable_of_ofLine {line : List Char} {code : Code} (h : ofLine line = .ok code) :
    code.All Instruction.Readable := by
  by_cases hempty : (Text.trim (beforeComment line)).isEmpty
  · rw [ofLine, if_pos hempty] at h
    cases h
    exact all_nil
  · rw [ofLine, if_neg hempty] at h
    obtain ⟨i, hi, h⟩ := Fallible.bind_eq_ok.1 h
    obtain rfl := Fallible.pure_eq_ok.1 h
    rw [Instruction.ofChars, Text.fields_trim] at hi
    refine all_cons.2 ⟨fun name hname => ?_, all_nil⟩
    obtain ⟨w, hw, rfl⟩ := List.mem_map.1 (Instruction.mem_of_ofFields hi name hname)
    rw [String.toList_ofList]
    exact isField_of_mem_fields hw

/-- **Whatever is read from a text is readable.** -/
theorem readable_of_ofText {text : String} {code : Code} (h : ofText text = .ok code) :
    code.All Instruction.Readable := by
  have hlines : ∀ (lines : List (List Char × Nat)) (codes : List Code),
      lines.mapM (fun p => (ofLine p.1).mapError fun cause => LineError.mk p.2 cause) = .ok codes →
        ∀ code ∈ codes, code.All Instruction.Readable := by
    intro lines
    induction lines with
    | nil =>
      intro codes h
      obtain rfl := Fallible.pure_eq_ok.1 h
      exact List.forall_mem_nil _
    | cons line lines ih =>
      intro codes h
      rw [List.mapM_cons] at h
      obtain ⟨code, hcode, h⟩ := Fallible.bind_eq_ok.1 h
      obtain ⟨others, hothers, h⟩ := Fallible.bind_eq_ok.1 h
      obtain rfl := Fallible.pure_eq_ok.1 h
      exact List.forall_mem_cons.2 ⟨readable_of_ofLine (mapError_eq_ok.1 hcode), ih others hothers⟩
  unfold ofText at h
  obtain ⟨codes, hcodes, h⟩ := Fallible.bind_eq_ok.1 h
  obtain rfl := Fallible.pure_eq_ok.1 h
  intro i hi
  obtain ⟨code, hcode, hi⟩ := List.mem_flatten.1 hi
  exact hlines _ codes hcodes code hcode i hi

/-- **Code text is an exact encoding.** Code is read back from its text just if every name in it is
one field of its line: not empty, without blanks and without a comment. What is read from any text
is such code, so it is read back from its own text. -/
theorem ofText_text_iff :
    (∀ code : Code, ofText code.text = .ok code ↔ code.All Instruction.Readable) ∧
      ∀ (text : String) (code : Code), ofText text = .ok code →
        code.All Instruction.Readable ∧ ofText code.text = .ok code := by
  refine ⟨fun code => ⟨readable_of_ofText, ofText_text⟩, fun text code h => ?_⟩
  have hreadable := readable_of_ofText h
  exact ⟨hreadable, ofText_text hreadable⟩

/-- A text with comments, blanks and a number that are not as code text has them. -/
def looseText : String :=
  "// a label\n\tlabel  a/b\r\n push constant +007 // seven\n\n"

/-- The loose text is read as code that has a text of its own, and a label that holds a line feed is
not read back: its text is that of two instructions. -/
theorem looseText_readBack :
    ofText looseText = .ok [.label "a/b", .push .constant 7] ∧
      ofText (Code.text [.label "a/b", .push .constant 7])
        = .ok [.label "a/b", .push .constant 7] ∧
      Code.text [.label "a\nreturn"] = Code.text [.label "a", .ret] ∧
      ofText (Code.text [.label "a\nreturn"]) ≠ .ok [.label "a\nreturn"] := by
  have h : ofText looseText = .ok [.label "a/b", .push .constant 7] := by decide +kernel
  refine ⟨h, (ofText_text_iff.2 looseText _ h).2, by decide, fun hback => ?_⟩
  have hreadable := (ofText_text_iff.1 _).1 hback
  have hfield := hreadable _ List.mem_cons_self "a\nreturn" rfl
  exact absurd (hfield.noBlank '\n' (by decide)) (by decide)

end Code

end JackCompiler
