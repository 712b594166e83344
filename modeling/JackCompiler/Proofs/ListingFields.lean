import JackCompiler.Instruction.Listing
import JackCompiler.Proofs.CodeText
import JackCompiler.Proofs.PlainText
/-!
# What a listing shows

A listing, read without its colours and without the rules above functions, has a line for each
instruction. The fields of the line are those of the instruction's text, but a label is shown with a
colon in place of its mnemonic. Columns are filled with spaces only up to their width, so a name
that fills its column runs into the number behind it: the fields of a call are found again exactly
if its name is shorter than the column.
-/

namespace JackCompiler

namespace Text

variable {w : List Char}

/-! ## Fields in columns -/

theorem fields_space (cs : List Char) : fields (' ' :: cs) = fields cs :=
  fields_append_blank (by decide) [] cs

/-- A text that is shorter than its column is a field of its own. -/
theorem fields_padRight {s : String} {width : Nat} (h : s.length < width) (cs : List Char) :
    fields ((padRight width s).toList ++ cs) = fields s.toList ++ fields cs := by
  obtain ⟨n, hn⟩ : ∃ n, width - s.length = n + 1 := ⟨width - s.length - 1, by omega⟩
  have hblanks : ∀ c ∈ List.replicate n ' ', isBlank c := by
    intro c hc
    rw [List.eq_of_mem_replicate hc]
    decide
  have hpad : (padRight width s).toList ++ cs
      = (s.toList ++ List.replicate n ' ') ++ ' ' :: cs := by
    simp [padRight, spaces, hn, List.replicate_succ']
  rw [hpad, fields_append_blank (by decide), fields_append_blanks hblanks]

/-- A text that fills its column has no space behind it. -/
theorem padRight_eq_self {s : String} {width : Nat} (h : width ≤ s.length) :
    padRight width s = s := by
  simp [padRight, spaces, Nat.sub_eq_zero_of_le h]

/-! ## Lines -/

/-- A text on one line is its only line. -/
theorem lines_of_oneLine (hne : w ≠ []) (hw : '\n' ∉ w) : lines w = [w] := by
  obtain ⟨hline, hnext⟩ := Token.lineRest_eq_self hw
  rw [Token.lines_eq_cons hne, hline, hnext, lines_nil]

/-- Lines with a line feed between each two are found again. -/
theorem lines_intercalate {ws : List (List Char)} (h : ∀ w ∈ ws, w ≠ [] ∧ Printed w) :
    lines (['\n'].intercalate ws) = ws := by
  induction ws with
  | nil => exact lines_nil
  | cons w ws ih =>
    obtain ⟨⟨hne, hw⟩, hws⟩ := List.forall_mem_cons.1 h
    cases ws with
    | nil => simpa using lines_of_oneLine hne hw.oneLine.1
    | cons w' ws =>
      rw [List.intercalate_cons_cons, List.append_assoc, List.singleton_append,
        lines_append_newline hw.oneLine.1 hw.oneLine.2, ih hws]

/-- What remains of lines of which each shows something by itself. -/
theorem plain_intercalate {ws : List (List Char)} (h : ∀ w ∈ ws, Shows w (plain w)) :
    plain (['\n'].intercalate ws) = ['\n'].intercalate (ws.map plain) := by
  induction ws with
  | nil => exact plain_nil
  | cons w ws ih =>
    obtain ⟨hw, hws⟩ := List.forall_mem_cons.1 h
    cases ws with
    | nil => simp
    | cons w' ws =>
      have hfeed : Shows ['\n'] ['\n'] := shows_self (by decide)
      rw [List.map_cons, List.map_cons, List.intercalate_cons_cons, List.intercalate_cons_cons,
        List.append_assoc, List.append_assoc, hw, hfeed, ih hws, List.map_cons]

end Text

theorem Code.toList_rule : Code.rule.toList = List.replicate 55 '-' :=
  String.toList_ofList

namespace Instruction

open Text

variable {i : Instruction}

/-! ## The line of an instruction -/

/-- The name in the instruction is not empty and holds neither blanks nor escape characters. -/
def Printable (i : Instruction) : Prop :=
  ∀ name ∈ i.name?, name.toList ≠ [] ∧
    ∀ c ∈ name.toList, isBlank c = false ∧ c ≠ escapeChar

instance : DecidablePred Printable := fun i =>
  decidable_of_iff (i.name?.all fun name => !name.toList.isEmpty &&
      name.toList.all fun c => !isBlank c && c != escapeChar) <| by
    simp [Printable, Option.all_eq_true]

/-- The fields that show an instruction: those of its text, but a label is followed by a colon in
place of the mnemonic before it. -/
def shownFields : Instruction → List (List Char)
  | label name => [name.toList ++ [':']]
  | i => Text.fields i.text.toList

/-- The fields of the line of an instruction in a listing. The name of a call that fills its column
runs into the number of arguments. -/
def listedFields : Instruction → List (List Char)
  | call name args =>
    if name.length < columnWidth then shownFields (call name args)
    else ["call".toList, name.toList ++ args.toNat.repr.toList]
  | i => shownFields i

/-- A line with an operation, what it acts on, and a number, without colours. -/
def plainRow (operation target : String) (number : UInt16) : String :=
  "  " ++ padRight columnWidth operation ++ padRight columnWidth target ++ number.toNat.repr

/-- The line of an instruction in a listing, without colours. -/
def plainListing : Instruction → String
  | push segment index => plainRow "push" segment.name index
  | pop segment index => plainRow "pop" segment.name index
  | compute op => "  " ++ op.name
  | label name => name ++ ":"
  | goto name => "  " ++ padRight columnWidth "goto" ++ name
  | ifGoto name => "  " ++ padRight columnWidth "if-goto" ++ name
  | call name args => plainRow "call" name args
  | function name locals => "function " ++ name ++ " " ++ locals.toNat.repr
  | ret => "  return"

theorem printed_segment (g : Segment) : Printed g.name.toList := by
  cases g <;> exact .of_all (by decide)

theorem printed_operation (op : Operation) : Printed op.name.toList := by
  cases op <;> exact .of_all (by decide)

/-- The name of a printable instruction is printed. -/
theorem Printable.printed (h : i.Printable) {name : String} (hname : name ∈ i.name?) :
    Printed name.toList := by
  intro c hc
  obtain ⟨hblank, hesc⟩ := (h name hname).2 c hc
  refine ⟨hesc, fun hb => ?_⟩
  rw [hblank] at hb
  cases hb

theorem displays_margin : Displays "  ".toList "  ".toList :=
  (Printed.of_all (by decide)).displays

/-- A column is shown as its text with spaces behind it. -/
theorem displays_column {s : String} (colour : Style) (h : Printed s.toList) :
    Displays (colour.escape ++ padRight columnWidth s).toList (padRight columnWidth s).toList := by
  simpa using (displays_escape colour).append (printed_padRight columnWidth h).displays

theorem displays_number (n : Nat) : Displays (coloured .yellow n.repr).toList n.repr.toList :=
  (printed_repr n).displays.coloured .yellow

/-- A row of three columns is shown without its colours. -/
theorem displays_listingRow {operation target : String} (number : UInt16)
    (ho : Printed operation.toList) (ht : Printed target.toList) :
    Displays (listingRow operation target number).toList
      (plainRow operation target number).toList := by
  have hcolumns := (displays_margin.append (displays_column .red ho)).append
    (displays_column .blue ht)
  simpa [listingRow, plainRow] using hcolumns.append (displays_number number.toNat)

/-- A row of one word is shown without its colours. -/
theorem displays_listingWord {operation : String} (ho : Printed operation.toList) :
    Displays (listingWord operation).toList ("  " ++ operation).toList := by
  simpa [listingWord] using displays_margin.append (ho.displays.coloured .red)

/-- A row of two columns is shown without its colours. -/
theorem displays_listingJump {operation target : String} (ho : Printed operation.toList)
    (ht : Printed target.toList) :
    Displays (listingJump operation target).toList
      ("  " ++ padRight columnWidth operation ++ target).toList := by
  simpa [listingJump] using
    (displays_margin.append (displays_column .red ho)).append (ht.displays.coloured .green)

/-- **Without its colours, the line of an instruction is as it is laid out.** -/
theorem displays_listing (hi : i.Printable) :
    Displays i.listing.toList i.plainListing.toList := by
  cases i with
  | push segment index | pop segment index =>
    exact displays_listingRow index (.of_all (by decide)) (printed_segment segment)
  | compute op => exact displays_listingWord (printed_operation op)
  | label name =>
    have hcolon : Printed ":".toList := .of_all (by decide)
    have hname : Printed (name ++ ":").toList := by
      simpa using (hi.printed rfl).append hcolon
    exact hname.displays.coloured .green
  | goto name | ifGoto name => exact displays_listingJump (.of_all (by decide)) (hi.printed rfl)
  | call name args => exact displays_listingRow args (.of_all (by decide)) (hi.printed rfl)
  | function name locals =>
    have hhead : Printed "function ".toList := .of_all (by decide)
    have hspace : Printed " ".toList := .of_all (by decide)
    have hname : Printed ("function " ++ name).toList := by
      simpa using hhead.append (hi.printed rfl)
    simpa [listing, plainListing] using
      ((hname.displays.emphasised .cyan).append hspace.displays).append
        (displays_number locals.toNat)
  | ret => exact displays_listingWord (.of_all (by decide))

/-! ## The fields of the line -/

/-- The name of an instruction is one field. -/
theorem fields_mnemonic (m : Mnemonic) : Text.fields m.name.toList = [m.name.toList] := by
  have hsolid := (solid_mnemonic m).isField
  exact fields_of_noBlank hsolid.ne_nil hsolid.noBlank

/-- The name of a segment is one field. -/
theorem fields_segment (g : Segment) : Text.fields g.name.toList = [g.name.toList] := by
  have hsolid := (solid_segment g).isField
  exact fields_of_noBlank hsolid.ne_nil hsolid.noBlank

/-- A number is one field. -/
theorem fields_repr (n : Nat) : Text.fields n.repr.toList = [n.repr.toList] := by
  have hsolid := (solid_toDigits n).isField
  rw [Nat.toList_repr]
  exact fields_of_noBlank hsolid.ne_nil hsolid.noBlank

/-- The name of a printable instruction is one field. -/
theorem Printable.fields_name (h : i.Printable) {name : String} (hname : name ∈ i.name?) :
    Text.fields name.toList = [name.toList] :=
  fields_of_noBlank (h name hname).1 fun c hc => ((h name hname).2 c hc).1

/-- Every segment fits into its column. -/
theorem length_segment_lt (g : Segment) : g.name.length < columnWidth := by
  cases g <;> decide

/-- The text of an instruction has the fields of the instruction. -/
theorem fields_text (hi : i.Printable) :
    Text.fields i.text.toList = i.fields.map String.toList := by
  have hfields : ∀ w ∈ i.fields.map String.toList, w ≠ [] ∧ ∀ c ∈ w, isBlank c = false :=
    forall_mem_fields (fun w hw => ⟨hw.ne_nil, hw.isField.noBlank⟩) fun name hname =>
      ⟨(hi name hname).1, fun c hc => ((hi name hname).2 c hc).1⟩
  rw [toList_text, fields_intercalate_of_noBlank hfields]

/-- A mnemonic is a field of its own, since all are shorter than their column. -/
theorem fields_mnemonicColumn (m : Mnemonic) (cs : List Char) :
    Text.fields (("  " ++ padRight columnWidth m.name).toList ++ cs)
      = m.name.toList :: Text.fields cs := by
  have hlength : m.name.length < columnWidth := by
    cases m with
    | compute op => cases op <;> decide
    | _ => decide
  have hline : ("  " ++ padRight columnWidth m.name).toList ++ cs
      = ' ' :: ' ' :: ((padRight columnWidth m.name).toList ++ cs) := by
    simp
  rw [hline, fields_space, fields_space, fields_padRight hlength, fields_mnemonic]
  rfl

/-- A row has its three columns as fields, if the second fits into its column. -/
theorem fields_plainRow {m : Mnemonic} {target : String} (number : UInt16)
    (hfield : Text.fields target.toList = [target.toList]) (ht : target.length < columnWidth) :
    Text.fields (plainRow m.name target number).toList
      = [m.name.toList, target.toList, number.toNat.repr.toList] := by
  rw [plainRow, String.append_assoc, String.toList_append, fields_mnemonicColumn,
    String.toList_append, fields_padRight ht, hfield, fields_repr]
  rfl

/-- A target that fills its column is one field with the number. -/
theorem fields_plainRow_of_le {m : Mnemonic} {target : String} (number : UInt16)
    (hblank : ∀ c ∈ target.toList, isBlank c = false) (ht : columnWidth ≤ target.length) :
    Text.fields (plainRow m.name target number).toList
      = [m.name.toList, target.toList ++ number.toNat.repr.toList] := by
  have hdigits := (solid_toDigits number.toNat).isField
  have hfield : Text.fields (target.toList ++ number.toNat.repr.toList)
      = [target.toList ++ number.toNat.repr.toList] := by
    rw [Nat.toList_repr]
    exact fields_of_noBlank (by simp [hdigits.ne_nil])
      (List.forall_mem_append.2 ⟨hblank, hdigits.noBlank⟩)
  rw [plainRow, String.append_assoc, String.toList_append, fields_mnemonicColumn,
    padRight_eq_self ht, String.toList_append, hfield]

/-- A row has its two columns as fields, however long the second is. -/
theorem fields_plainJump {m : Mnemonic} {target : String}
    (hfield : Text.fields target.toList = [target.toList]) :
    Text.fields ("  " ++ padRight columnWidth m.name ++ target).toList
      = [m.name.toList, target.toList] := by
  rw [String.toList_append, fields_mnemonicColumn, hfield]

/-- **The line of an instruction in a listing has these fields.** -/
theorem fields_plainListing (hi : i.Printable) :
    Text.fields i.plainListing.toList = i.listedFields := by
  -- But for a label and a call with a long name, the fields of the line are those of the text.
  have hshown := fields_text hi
  cases i with
  | push segment index =>
    exact (fields_plainRow (m := .push) index (fields_segment segment)
      (length_segment_lt segment)).trans hshown.symm
  | pop segment index =>
    exact (fields_plainRow (m := .pop) index (fields_segment segment)
      (length_segment_lt segment)).trans hshown.symm
  | compute op =>
    rw [plainListing, String.toList_append]
    exact (fields_space _).trans (fields_space _)
  | label name =>
    have hcolon : ∀ c ∈ [':'], isBlank c = false := by
      simp only [List.mem_singleton, forall_eq]
      decide
    rw [plainListing, String.toList_append]
    exact fields_of_noBlank (by simp) (List.forall_mem_append.2
      ⟨fun c hc => ((hi name rfl).2 c hc).1, hcolon⟩)
  | goto name => exact (fields_plainJump (m := .goto) (hi.fields_name rfl)).trans hshown.symm
  | ifGoto name => exact (fields_plainJump (m := .ifGoto) (hi.fields_name rfl)).trans hshown.symm
  | call name args =>
    rw [listedFields]
    split
    · next hlt =>
      exact (fields_plainRow (m := .call) args (hi.fields_name rfl) hlt).trans hshown.symm
    · next hle =>
      exact fields_plainRow_of_le (m := .call) args (fun c hc => ((hi name rfl).2 c hc).1)
        (Nat.le_of_not_lt hle)
  | function name locals => rfl
  | ret => exact (fields_space _).trans (fields_space _)

/-- No row is a rule. -/
theorem exists_mem_plainListing (i : Instruction) : ∃ c ∈ i.plainListing.toList, c ≠ '-' := by
  cases i with
  | label name => exact ⟨':', by simp [plainListing], by decide⟩
  | _ => exact ⟨' ', by simp [plainListing, plainRow], by decide⟩

/-- The line of an instruction is no rule. -/
theorem plainListing_ne_rule (i : Instruction) : i.plainListing.toList ≠ Code.rule.toList := by
  obtain ⟨c, hc, hdash⟩ := i.exists_mem_plainListing
  intro heq
  rw [heq, Code.toList_rule] at hc
  exact hdash (List.eq_of_mem_replicate hc)

/-- The listing shows an instruction by its own fields unless it calls a name that fills its
column. -/
theorem listedFields_eq_shownFields_iff (hi : i.Printable) :
    i.listedFields = i.shownFields ↔
      ∀ name args, i = call name args → name.length < columnWidth := by
  cases i with
  | call name args =>
    have hshown : shownFields (call name args)
        = ["call".toList, name.toList, args.toNat.repr.toList] := fields_text hi
    have hiff : listedFields (call name args) = shownFields (call name args) ↔
        name.length < columnWidth := by
      rw [listedFields]
      split
      · next hlt => simp [hlt]
      -- Two fields are not three.
      · next hle => simp [hshown, hle]
    rw [hiff]
    constructor
    · rintro hlt name args ⟨⟩
      exact hlt
    · intro h
      exact h name args rfl
  | _ =>
    constructor
    · intro _ name args h
      cases h
    · intro _
      rfl

end Instruction

namespace Code

open Text

variable {code : Code}

/-! ## Whole listings -/

/-- The fields of the lines of a listing, read without its colours and without the rules. -/
def readListing (listing : String) : List (List (List Char)) :=
  ((Text.lines (plain listing.toList)).filter fun line => line != rule.toList).map Text.fields

/-- A line for each instruction, as given, with a rule above each function. -/
def ruledLines (line : Instruction → List Char) (code : Code) : List (List Char) :=
  code.flatMap fun i => if i.isFunction then [rule.toList, line i] else [line i]

/-- A line of the listing is a rule or the row of an instruction. -/
theorem mem_ruledLines {line : Instruction → List Char} {w : List Char}
    (h : w ∈ ruledLines line code) : w = rule.toList ∨ ∃ i ∈ code, w = line i := by
  obtain ⟨i, hi, hw⟩ := List.mem_flatMap.1 h
  split at hw
  · rcases List.mem_cons.1 hw with hw | hw
    · exact .inl hw
    · exact .inr ⟨i, hi, List.mem_singleton.1 hw⟩
  · exact .inr ⟨i, hi, List.mem_singleton.1 hw⟩

theorem displays_rule : Displays rule.toList rule.toList := by
  refine Printed.displays fun c hc => ?_
  rw [toList_rule] at hc
  rw [List.eq_of_mem_replicate hc]
  exact ⟨by decide, fun hb => absurd hb (by decide)⟩

/-- The listing is its lines with line feeds between them. -/
theorem toList_listing (code : Code) :
    code.listing.toList = ['\n'].intercalate (ruledLines (fun i => i.listing.toList) code) := by
  have hlines : ∀ i : Instruction,
      (if i.isFunction then [rule, i.listing] else [i.listing]).map String.toList
        = if i.isFunction then [rule.toList, i.listing.toList] else [i.listing.toList] := by
    intro i
    split <;> rfl
  rw [listing, String.toList_intercalate, List.map_flatMap]
  simp only [hlines]
  rfl

/-- Without the colours, the lines are the plain rows between the rules. -/
theorem map_plain_ruledLines (h : code.All Instruction.Printable) :
    (ruledLines (fun i => i.listing.toList) code).map plain
      = ruledLines (fun i => i.plainListing.toList) code := by
  unfold ruledLines
  rw [List.map_flatMap]
  refine List.flatMap_congr fun i hi => ?_
  have hline := (Instruction.displays_listing (h i hi)).shows.plain_eq
  have hrule := displays_rule.shows.plain_eq
  split
  · rw [List.map_cons, List.map_cons, hrule, hline]
    rfl
  · rw [List.map_cons, hline]
    rfl

/-- **Without its colours, a listing has a line for each instruction**, and the rules. -/
theorem lines_plain_listing (h : code.All Instruction.Printable) :
    Text.lines (plain code.listing.toList) = ruledLines (fun i => i.plainListing.toList) code := by
  -- No switch reaches into the next line, so the colours can be taken out line by line.
  have hshows : ∀ w ∈ ruledLines (fun i => i.listing.toList) code, Shows w (plain w) := by
    intro w hw
    obtain ⟨shown, hshown⟩ : ∃ shown, Displays w shown := by
      rcases mem_ruledLines hw with rfl | ⟨i, hi, rfl⟩
      · exact ⟨_, displays_rule⟩
      · exact ⟨_, Instruction.displays_listing (h i hi)⟩
    rw [hshown.shows.plain_eq]
    exact hshown.shows
  -- An empty last line would not be found again, nor one that ends in a carriage return.
  have hprinted : ∀ w ∈ ruledLines (fun i => i.plainListing.toList) code, w ≠ [] ∧ Printed w := by
    intro w hw
    rcases mem_ruledLines hw with rfl | ⟨i, hi, rfl⟩
    · exact ⟨by simp [toList_rule], displays_rule.printed⟩
    · obtain ⟨c, hc, -⟩ := i.exists_mem_plainListing
      exact ⟨List.ne_nil_of_mem hc, (Instruction.displays_listing (h i hi)).printed⟩
  rw [toList_listing, plain_intercalate hshows, map_plain_ruledLines h, lines_intercalate hprinted]

/-- Without the rules, a line for each instruction is left. -/
theorem filter_ruledLines (code : Code) :
    ((ruledLines (fun i => i.plainListing.toList) code).filter fun line => line != rule.toList)
      = code.map fun i => i.plainListing.toList := by
  have hrule : ∀ i : Instruction, (i.plainListing.toList != rule.toList) = true := fun i =>
    bne_iff_ne.2 i.plainListing_ne_rule
  induction code with
  | nil => rfl
  | cons i code ih =>
    have hcons : ruledLines (fun i => i.plainListing.toList) (i :: code)
        = (if i.isFunction then [rule.toList, i.plainListing.toList] else [i.plainListing.toList])
          ++ ruledLines (fun i => i.plainListing.toList) code := List.flatMap_cons
    rw [hcons, List.filter_append, ih]
    split <;> simp [hrule i]

/-- **A listing shows the fields of the instructions.** Read without colours and rules, it has a
line for each instruction, with the fields of the instruction's text, or a label and a colon, but
the name of a call that is not shorter than its column runs into the number behind it. So it shows
each instruction by its own fields exactly if no such name is called. -/
theorem readListing_listing (h : code.All Instruction.Printable) :
    readListing code.listing = code.map Instruction.listedFields ∧
      (readListing code.listing = code.map Instruction.shownFields ↔
        ∀ name args, .call name args ∈ code → name.length < Instruction.columnWidth) := by
  have hread : readListing code.listing = code.map Instruction.listedFields := by
    rw [readListing, lines_plain_listing h, filter_ruledLines, List.map_map]
    refine List.map_congr_left fun i hi => ?_
    rw [Function.comp_apply, Instruction.fields_plainListing (h i hi)]
  refine ⟨hread, ?_⟩
  rw [hread, List.map_inj_left]
  constructor
  · intro hall name args hcall
    exact (Instruction.listedFields_eq_shownFields_iff (h _ hcall)).1 (hall _ hcall) name args rfl
  · intro hshort i hi
    refine (Instruction.listedFields_eq_shownFields_iff (h i hi)).2 ?_
    rintro name args rfl
    exact hshort name args hi

/-- Names of eight characters, of one character, and with slashes. -/
def shortNames : Code :=
  [.function "Main.main" 0, .label "L//1", .push .argument 65535, .call "Math.abs" 1, .ifGoto "x",
    .compute .not, .ret]

theorem readListing_shortNames :
    shortNames.All Instruction.Printable ∧
      readListing shortNames.listing = shortNames.map Instruction.listedFields ∧
      readListing shortNames.listing = shortNames.map Instruction.shownFields := by
  have hprintable : shortNames.All Instruction.Printable := by
    unfold All
    decide
  obtain ⟨hread, hshown⟩ := readListing_listing hprintable
  refine ⟨hprintable, hread, hshown.2 ?_⟩
  intro name args hcall
  obtain ⟨rfl, -⟩ : name = "Math.abs" ∧ args = 1 := by simpa [shortNames] using hcall
  decide

/-- A name of more characters than its column is wide. -/
def longName : Code :=
  [.call "Math.multiply" 2]

/-- The listing of that call shows two fields, its text has three. -/
theorem readListing_longName :
    longName.All Instruction.Printable ∧
      readListing longName.listing = [["call".toList, "Math.multiply2".toList]] ∧
      readListing longName.listing ≠ longName.map Instruction.shownFields := by
  unfold All
  decide +kernel

end Code

end JackCompiler
