import JackCompiler.Instruction.Parser
import JackCompiler.Proofs.Emission
import JackCompiler.Proofs.Lexing.Steps
import Mathlib.Data.List.DropRight
/-!
# Code text

A line of code text is read from its fields, so what counts is which fields a line has: blanks
around them make no difference. The text of an instruction is its fields with one space between
each two. If its name is a field, that is, neither empty nor split by a blank nor cut by a comment,
then its line has just these fields, and code of such instructions is read back from its text.
-/

namespace JackCompiler

namespace Text

/-! ## Fields of a line -/

/-- A text that is one field of a line and that no comment cuts. -/
structure IsField (w : List Char) : Prop where
  ne_nil : w ≠ []
  noBlank : ∀ c ∈ w, isBlank c = false
  noComment : ¬ ['/', '/'] <:+: w

/-- A text without blanks and slashes. -/
structure Solid (w : List Char) : Prop where
  ne_nil : w ≠ []
  chars : ∀ c ∈ w, isBlank c = false ∧ c ≠ '/'

variable {c : Char} {w cs : List Char}

theorem Solid.isField (h : Solid w) : IsField w where
  ne_nil := h.ne_nil
  noBlank c hc := (h.chars c hc).1
  noComment hcomment := (h.chars '/' (hcomment.subset List.mem_cons_self)).2 rfl

theorem Solid.append {w' : List Char} (h : Solid w) (h' : Solid w') : Solid (w ++ w') where
  ne_nil := by simp [h.ne_nil]
  chars := List.forall_mem_append.2 ⟨h.chars, h'.chars⟩

theorem Solid.of_all (hne : w ≠ []) (h : w.all fun c => !isBlank c && c != '/') : Solid w :=
  ⟨hne, fun c hc => by simpa using List.all_eq_true.1 h c hc⟩

/-- The characters of a word are neither blanks nor slashes. -/
theorem Solid.of_isWordChar (hne : w ≠ []) (h : ∀ c ∈ w, Token.isWordChar c) : Solid w := by
  refine ⟨hne, fun c hc => ⟨Token.not_isBlank_of_isWordChar (h c hc), ?_⟩⟩
  rintro rfl
  cases h '/' hc

theorem solid_toDigits (n : Nat) : Solid (Nat.toDigits 10 n) := by
  refine .of_isWordChar Nat.toDigits_ne_nil fun c hc => ?_
  exact Token.isWordChar_of_isDigit (Nat.isDigit_of_mem_toDigits (by decide) (by decide) hc)

theorem fields_append_blank (hc : isBlank c) (a b : List Char) :
    fields (a ++ c :: b) = fields a ++ fields b := by
  rw [fields, List.splitOnP_append_cons a b hc, List.filter_append]
  rfl

theorem fields_of_noBlank (hne : w ≠ []) (hw : ∀ c ∈ w, isBlank c = false) : fields w = [w] := by
  rw [fields, List.splitOnP_eq_singleton hw]
  simp [hne]

/-- Fields with one space between each two are found again. -/
theorem fields_intercalate_of_noBlank {ws : List (List Char)}
    (h : ∀ w ∈ ws, w ≠ [] ∧ ∀ c ∈ w, isBlank c = false) : fields ([' '].intercalate ws) = ws := by
  induction ws with
  | nil => rfl
  | cons w ws ih =>
    obtain ⟨⟨hne, hw⟩, hws⟩ := List.forall_mem_cons.1 h
    cases ws with
    | nil => simpa [List.intercalate] using fields_of_noBlank hne hw
    | cons w' ws =>
      rw [List.intercalate_cons_cons, List.append_assoc, List.singleton_append,
        fields_append_blank (by decide), fields_of_noBlank hne hw, ih hws]
      rfl

theorem fields_intercalate {ws : List (List Char)} (h : ∀ w ∈ ws, IsField w) :
    fields ([' '].intercalate ws) = ws :=
  fields_intercalate_of_noBlank fun w hw => ⟨(h w hw).ne_nil, (h w hw).noBlank⟩

/-- Two texts with a space between them hold a comment only if one of them does. -/
theorem comment_of_append {a b : List Char} (h : ['/', '/'] <:+: a ++ ' ' :: b) :
    ['/', '/'] <:+: a ∨ ['/', '/'] <:+: b := by
  induction a with
  | nil =>
    rcases List.infix_cons_iff.1 h with h | h
    · simp [List.cons_prefix_cons] at h
    · exact .inr h
  | cons c a ih =>
    rcases List.infix_cons_iff.1 h with h | h
    · -- both slashes stand before the space
      cases a with
      | nil => simp [List.cons_prefix_cons] at h
      | cons d a =>
        obtain ⟨rfl, rfl, -⟩ := by simpa [List.cons_prefix_cons] using h
        exact .inl (List.IsPrefix.isInfix ⟨a, rfl⟩)
    · exact (ih h).imp_left fun h => List.infix_cons_iff.2 (.inr h)

theorem noComment_intercalate {ws : List (List Char)} (h : ∀ w ∈ ws, IsField w) :
    ¬ ['/', '/'] <:+: [' '].intercalate ws := by
  induction ws with
  | nil => simp
  | cons w ws ih =>
    obtain ⟨hw, hws⟩ := List.forall_mem_cons.1 h
    cases ws with
    | nil => simpa [List.intercalate] using hw.noComment
    | cons w' ws =>
      rw [List.intercalate_cons_cons, List.append_assoc, List.singleton_append]
      intro hcomment
      exact (comment_of_append hcomment).elim hw.noComment (ih hws)

theorem eq_or_mem_of_mem_intercalate {α : Type} {x y : α} {xs : List (List α)}
    (h : y ∈ [x].intercalate xs) : y = x ∨ ∃ w ∈ xs, y ∈ w := by
  induction xs with
  | nil => simp at h
  | cons w xs ih =>
    cases xs with
    | nil => exact .inr ⟨w, List.mem_cons_self, by simpa using h⟩
    | cons w' xs =>
      rw [List.intercalate_cons_cons, List.mem_append, List.mem_append] at h
      rcases h with (h | h) | h
      · exact .inr ⟨w, List.mem_cons_self, h⟩
      · exact .inl (List.mem_singleton.1 h)
      · refine (ih h).imp_right ?_
        rintro ⟨v, hv, hy⟩
        exact ⟨v, List.mem_cons_of_mem _ hv, hy⟩

theorem fields_dropWhile (cs : List Char) : fields (cs.dropWhile isBlank) = fields cs := by
  induction cs with
  | nil => rfl
  | cons c cs ih =>
    by_cases hc : isBlank c
    · rw [List.dropWhile_cons_of_pos hc, ih]
      exact (fields_append_blank hc [] cs).symm
    · rw [List.dropWhile_cons_of_neg hc]

theorem fields_append_blanks {b : List Char} (hb : ∀ c ∈ b, isBlank c) (a : List Char) :
    fields (a ++ b) = fields a := by
  induction b generalizing a with
  | nil => rw [List.append_nil]
  | cons c b ih =>
    obtain ⟨hc, hb⟩ := List.forall_mem_cons.1 hb
    rw [fields_append_blank hc, ← List.nil_append b, ih hb []]
    exact List.append_nil _

/-- **Blanks around a text do not change its fields.** -/
theorem fields_trim (cs : List Char) : fields (trim cs) = fields cs := by
  have hend : trim cs ++ (cs.dropWhile isBlank).rtakeWhile isBlank = cs.dropWhile isBlank :=
    List.rdropWhile_append_rtakeWhile
  have hblanks : ∀ c ∈ (cs.dropWhile isBlank).rtakeWhile isBlank, isBlank c := fun c hc =>
    List.mem_rtakeWhile_imp hc
  calc fields (trim cs)
      = fields (cs.dropWhile isBlank) := by rw [← hend, fields_append_blanks hblanks]
    _ = fields cs := fields_dropWhile cs

/-! ## Lines -/

/-- A line that is written out with a line feed behind it is read as it stands. -/
theorem lines_append_newline (hw : '\n' ∉ w) (hr : w.getLast? ≠ some '\r') (cs : List Char) :
    lines (w ++ '\n' :: cs) = w :: lines cs := by
  rw [Token.lines_eq_cons (by simp), Token.lineRest_append hw hr, Token.nextLines_append hw]
  simp [Token.lineRest, Token.nextLines]

end Text

namespace Code

/-- What is before the comment of a line without one is the line. -/
theorem beforeComment_eq_self {line : List Char} (h : ¬ ['/', '/'] <:+: line) :
    beforeComment line = line := by
  have hgo : ∀ (line seen : List Char), ¬ ['/', '/'] <:+: line →
      beforeComment.go seen line = seen.reverse ++ line := by
    intro line
    induction line with
    | nil => simp [beforeComment.go]
    | cons c line ih =>
      intro seen h
      rw [beforeComment.go]
      · rw [ih]
        · simp
        · exact fun hc => h (List.infix_cons_iff.2 (.inr hc))
      · rintro rest rfl rfl
        exact h (List.IsPrefix.isInfix ⟨rest, rfl⟩)
  exact hgo line [] h

/-- A line is read from the fields before its comment. -/
theorem ofLine_eq_ofFields {line : List Char} {ws : List (List Char)} (hws : ws ≠ [])
    (h : Text.fields (beforeComment line) = ws) :
    ofLine line = (Instruction.ofFields (ws.map String.ofList)).map fun i => [i] := by
  rw [← Text.fields_trim] at h
  have hne : Text.trim (beforeComment line) ≠ [] := by
    intro htrim
    rw [htrim] at h
    exact hws h.symm
  rw [ofLine, if_neg (by simpa using hne), Instruction.ofChars, h]
  cases Instruction.ofFields (ws.map String.ofList) <;> rfl

end Code

/-! ## The fields of an instruction -/

namespace Instruction

/-- The mnemonic that the line of an instruction begins with. -/
def mnemonic : Instruction → Mnemonic
  | push .. => .push
  | pop .. => .pop
  | compute op => .compute op
  | label _ => .label
  | goto _ => .goto
  | ifGoto _ => .ifGoto
  | call .. => .call
  | function .. => .function
  | ret => .ret

/-- The fields behind the mnemonic. -/
def operands : Instruction → List String
  | push segment index | pop segment index => [segment.name, index.toNat.repr]
  | label name | goto name | ifGoto name => [name]
  | call name n | function name n => [name, n.toNat.repr]
  | compute _ | ret => []

/-- The fields of the line of an instruction. -/
def fields (i : Instruction) : List String :=
  i.mnemonic.name :: i.operands

/-- The label or function that the instruction names. -/
def name? : Instruction → Option String
  | label name | goto name | ifGoto name => some name
  | call name _ | function name _ => some name
  | _ => none

/-- The name in the instruction is one field of its line. -/
def Readable (i : Instruction) : Prop :=
  ∀ name ∈ i.name?, Text.IsField name.toList

theorem toList_text (i : Instruction) :
    i.text.toList = [' '].intercalate (i.fields.map String.toList) := by
  cases i <;> simp [text, fields, mnemonic, operands, Mnemonic.name, List.intercalate]

theorem wordOperand_repr (n : UInt16) : wordOperand n.toNat.repr = .ok n := by
  have hplus : (Nat.toDigits 10 n.toNat).head? ≠ some '+' := by
    intro hhead
    have hdigit : '+'.isDigit :=
      Nat.isDigit_of_mem_toDigits (by decide) (by decide) (List.mem_of_head? hhead)
    cases hdigit
  have hword : Text.word? n.toNat.repr.toList = some n := by
    rw [Nat.toList_repr, Text.word?, if_neg hplus, Text.numeral?_toDigits]
    simp [n.toNat_lt_size]
  rw [wordOperand, hword]

/-- **The fields of an instruction spell it.** -/
theorem ofFields_fields (i : Instruction) : ofFields i.fields = .ok i := by
  rw [fields, ofFields, Mnemonic.ofName?_name]
  cases i <;> simp [mnemonic, operands, segmentOperand, wordOperand_repr] <;> rfl

theorem solid_mnemonic (m : Mnemonic) : Text.Solid m.name.toList := by
  cases m with
  | compute op => cases op <;> exact .of_all (by decide) (by decide)
  | _ => exact .of_all (by decide) (by decide)

theorem solid_segment (g : Segment) : Text.Solid g.name.toList := by
  cases g <;> exact .of_all (by decide) (by decide)

/-- What holds of texts without blanks and slashes, and of the name in the instruction, holds of all
its fields. -/
theorem forall_mem_fields {i : Instruction} {P : List Char → Prop}
    (hsolid : ∀ w, Text.Solid w → P w) (hname : ∀ name ∈ i.name?, P name.toList) :
    ∀ w ∈ i.fields.map String.toList, P w := by
  rw [fields, List.map_cons, List.forall_mem_cons]
  refine ⟨hsolid _ (solid_mnemonic _), ?_⟩
  cases i with
  | push segment index | pop segment index =>
    simp [operands, hsolid _ (solid_segment segment), hsolid _ (Text.solid_toDigits _)]
  | label name | goto name | ifGoto name => simpa [operands] using hname name rfl
  | call name n | function name n =>
    simpa [operands, hsolid _ (Text.solid_toDigits _)] using hname name rfl
  | compute op | ret => simp [operands]

theorem isField_of_mem_fields {i : Instruction} (hi : i.Readable) :
    ∀ w ∈ i.fields.map String.toList, Text.IsField w :=
  forall_mem_fields (fun _ h => h.isField) hi

end Instruction

namespace Instruction

variable {i : Instruction}

/-- **The line of an instruction is read as the instruction.** -/
theorem ofLine_text (hi : i.Readable) : Code.ofLine i.text.toList = .ok [i] := by
  have hfields := isField_of_mem_fields hi
  have hread : Text.fields (Code.beforeComment i.text.toList) = i.fields.map String.toList := by
    rw [toList_text, Code.beforeComment_eq_self (Text.noComment_intercalate hfields),
      Text.fields_intercalate hfields]
  have hnames : (i.fields.map String.toList).map String.ofList = i.fields := by
    simp [Function.comp_def]
  rw [Code.ofLine_eq_ofFields (by simp [fields]) hread, hnames, ofFields_fields]
  rfl

/-- The text of an instruction stands on one line. -/
theorem oneLine_text (hi : i.Readable) :
    '\n' ∉ i.text.toList ∧ i.text.toList.getLast? ≠ some '\r' := by
  have hblank : ∀ c ∈ i.text.toList, Text.isBlank c → c = ' ' := by
    intro c hc hb
    rw [toList_text] at hc
    refine (Text.eq_or_mem_of_mem_intercalate hc).resolve_right ?_
    rintro ⟨w, hw, hc⟩
    rw [(isField_of_mem_fields hi w hw).noBlank c hc] at hb
    cases hb
  constructor
  · intro h
    cases hblank _ h (by decide)
  · intro h
    cases hblank _ (List.mem_of_getLast? h) (by decide)

end Instruction

/-! ## Whole code -/

namespace Code

theorem toList_text_cons (i : Instruction) (code : Code) :
    (Code.text (i :: code)).toList = i.text.toList ++ '\n' :: (Code.text code).toList := by
  simp [Code.text]

/-- **Code text has one line for each instruction.** -/
theorem lines_text {code : Code} (h : code.All Instruction.Readable) :
    Text.lines code.text.toList = code.map fun i => i.text.toList := by
  induction code with
  | nil => exact Text.lines_nil
  | cons i code ih =>
    obtain ⟨hi, hcode⟩ := Code.all_cons.1 h
    obtain ⟨hline, hreturn⟩ := Instruction.oneLine_text hi
    rw [toList_text_cons, Text.lines_append_newline hline hreturn, ih hcode]
    rfl

theorem mapM_ofLine_text {code : Code} (h : code.All Instruction.Readable) (row : Nat) :
    ((code.map fun i => i.text.toList).zipIdx row).mapM (fun p =>
      (ofLine p.1).mapError fun cause => LineError.mk p.2 cause) = .ok (code.map fun i => [i]) := by
  induction code generalizing row with
  | nil => rfl
  | cons i code ih =>
    obtain ⟨hi, hcode⟩ := Code.all_cons.1 h
    rw [List.map_cons, List.zipIdx_cons, List.mapM_cons, Instruction.ofLine_text hi, ih hcode]
    rfl

/-- **Code is read back from its text.** -/
theorem ofText_text {code : Code} (h : code.All Instruction.Readable) :
    ofText code.text = .ok code := by
  have hlines := mapM_ofLine_text h 0
  rw [← lines_text h] at hlines
  unfold ofText
  rw [hlines]
  change Except.ok (code.map fun i => [i]).flatten = .ok code
  rw [← List.flatMap_def, List.flatMap_singleton']

end Code

end JackCompiler
