import JackCompiler.Proofs.CodeText
/-!
# The language of instructions

Which texts spell an instruction, and what is wrong with those that do not. Two relations say so
without the reader: `Text.HasFields`, which fields a text has, and `Instruction.ReadAs`, what a list
of fields is read as, with the mnemonics and the segments written out. Reading a text is one after
the other (`Instruction.ofText_eq_iff`). So every text is read as one thing, an instruction or one
fault, and of several faults the first counts: in the operation, in the number of operands, in the
segment, in the number.
-/

namespace JackCompiler

namespace Text

/-! ## The fields of a text -/

/-- The text has these fields: they and blanks make it up, and behind each of them is a blank or the
end. -/
inductive HasFields : List Char → List (List Char) → Prop
  | nil : HasFields [] []
  /-- Blanks belong to no field. -/
  | blank {c : Char} {cs : List Char} {ws : List (List Char)} (hc : isBlank c)
      (h : HasFields cs ws) : HasFields (c :: cs) ws
  /-- A field is not empty, has no blank, and ends at one or with the text. -/
  | field {w cs : List Char} {ws : List (List Char)} (hne : w ≠ [])
      (hw : ∀ c ∈ w, isBlank c = false) (hend : ∀ c ∈ cs.head?, isBlank c)
      (h : HasFields cs ws) : HasFields (w ++ cs) (w :: ws)

variable {c : Char} {w cs : List Char} {ws : List (List Char)}

/-- A blank at the beginning makes no field. -/
theorem fields_cons_blank (hc : isBlank c) (cs : List Char) : fields (c :: cs) = fields cs :=
  fields_append_blank hc [] cs

/-- A field ends where a blank or the end of the text is. -/
theorem fields_append_of_head (hne : w ≠ []) (hw : ∀ c ∈ w, isBlank c = false)
    (hend : ∀ c ∈ cs.head?, isBlank c) : fields (w ++ cs) = w :: fields cs := by
  have hfield : fields w = [w] := fields_of_noBlank hne hw
  cases cs with
  | nil => rw [List.append_nil, hfield]; rfl
  | cons c cs =>
    have hc : isBlank c := hend c rfl
    rw [fields_append_blank hc, hfield, fields_cons_blank hc]
    rfl

/-- The fields of a text are the only ones that it has. -/
theorem HasFields.fields_eq (h : HasFields cs ws) : fields cs = ws := by
  induction h with
  | nil => rfl
  | blank hc _ ih => rw [fields_cons_blank hc, ih]
  | field hne hw hend _ ih => rw [fields_append_of_head hne hw hend, ih]

/-- Every text has its fields: the next one is the longest run up to a blank. -/
theorem hasFields_fields (cs : List Char) : HasFields cs (fields cs) := by
  induction hn : cs.length using Nat.strongRecOn generalizing cs with
  | ind n ih =>
    subst hn
    cases cs with
    | nil => exact .nil
    | cons c cs =>
      by_cases hc : isBlank c
      · rw [fields_cons_blank hc]
        exact .blank hc (ih cs.length (Nat.lt_succ_self _) cs rfl)
      · obtain ⟨w, rest, hsplit, hw, hend⟩ : ∃ w rest, cs = w ++ rest ∧
            (∀ d ∈ w, isBlank d = false) ∧ ∀ d ∈ rest.head?, isBlank d := by
          refine ⟨cs.takeWhile (!isBlank ·), cs.dropWhile (!isBlank ·),
            List.takeWhile_append_dropWhile.symm, fun d hd => ?_, fun d hd => ?_⟩
          · simpa using List.mem_takeWhile_imp hd
          · have hdrop := List.head?_dropWhile_not (!isBlank ·) cs
            rw [Option.mem_def.1 hd] at hdrop
            simpa using hdrop
        have hfield : ∀ d ∈ c :: w, isBlank d = false :=
          List.forall_mem_cons.2 ⟨by simpa using hc, hw⟩
        have hlength : rest.length < (c :: cs).length := by
          rw [hsplit, List.length_cons, List.length_append]
          omega
        rw [hsplit, ← List.cons_append,
          fields_append_of_head (List.cons_ne_nil c w) hfield hend]
        exact .field (List.cons_ne_nil c w) hfield hend (ih rest.length hlength rest rfl)

/-- **The fields of a text are the ones it has.** -/
theorem hasFields_iff : HasFields cs ws ↔ fields cs = ws := by
  refine ⟨HasFields.fields_eq, fun h => ?_⟩
  rw [← h]
  exact hasFields_fields cs

/-! ## Numerals -/

/-- The text is a numeral for the number: one or more ASCII digits, perhaps with a `+` before
them. -/
def IsNumeral (cs : List Char) (n : Nat) : Prop :=
  ∃ digits, (cs = digits ∨ cs = '+' :: digits) ∧ digits ≠ [] ∧ (∀ c ∈ digits, c.isDigit) ∧
    Nat.ofDigitChars 10 digits 0 = n

/-- A machine word is read from the numerals for it. -/
theorem word?_eq_some {n : UInt16} : word? cs = some n ↔ IsNumeral cs n.toNat := by
  have hfits : ∀ digits, ((numeral? digits).bind fun k =>
      if k < UInt16.size then some (UInt16.ofNat k) else none) = some n ↔
        numeral? digits = some n.toNat := by
    intro digits
    rw [Option.bind_eq_some_iff]
    constructor
    · rintro ⟨k, hk, hn⟩
      split at hn
      · next hsize =>
        cases hn
        rw [hk, UInt16.toNat_ofNat_of_lt' hsize]
      · cases hn
    · intro hn
      exact ⟨n.toNat, hn, by rw [if_pos n.toNat_lt_size, UInt16.ofNat_toNat]⟩
  rw [word?, hfits]
  by_cases hplus : cs.head? = some '+'
  · obtain ⟨digits, rfl⟩ := List.head?_eq_some_iff.1 hplus
    rw [if_pos hplus, List.tail_cons, numeral?_eq_some]
    constructor
    · exact fun h => ⟨digits, .inr rfl, h⟩
    · rintro ⟨digits', rfl | hdigits, h⟩
      · -- a `+` is no digit
        cases h.2.1 '+' List.mem_cons_self
      · rwa [(List.cons.inj hdigits).2]
  · rw [if_neg hplus, numeral?_eq_some]
    constructor
    · exact fun h => ⟨cs, .inl rfl, h⟩
    · rintro ⟨digits, rfl | rfl, h⟩
      · exact h
      · exact absurd rfl hplus

/-- A text is no word if it spells no number, or too large a one. -/
theorem word?_eq_none : word? cs = none ↔ ∀ n, IsNumeral cs n → 65535 < n := by
  rw [Option.eq_none_iff_forall_ne_some]
  constructor
  · intro h n hn
    by_contra hle
    have hsize : n < UInt16.size := by
      rw [show UInt16.size = 65536 from rfl]
      omega
    rw [← UInt16.toNat_ofNat_of_lt' hsize] at hn
    exact h _ (word?_eq_some.2 hn)
  · intro h n hn
    have hlarge : 65535 < n.toNat := h _ (word?_eq_some.1 hn)
    have hlt : n.toNat < 65536 := n.toNat_lt_size
    omega

end Text

namespace Instruction

open Text (HasFields IsNumeral)

/-! ## What fields are read as -/

/-- The mnemonics, each with the number of operands that it takes. -/
def operandCounts : List (String × Nat) :=
  [("push", 2), ("pop", 2), ("label", 1), ("goto", 1), ("if-goto", 1), ("call", 2),
    ("function", 2), ("return", 0), ("add", 0), ("sub", 0), ("neg", 0), ("eq", 0), ("gt", 0),
    ("lt", 0), ("and", 0), ("or", 0), ("not", 0)]

/-- The names of the segments. -/
def segmentNames : List String :=
  ["constant", "argument", "local", "static", "this", "that", "pointer", "temp"]

/-- What a list of fields is read as. -/
inductive ReadAs : List String → Except InstructionError Instruction → Prop
  /-- There is no field. -/
  | empty : ReadAs [] (.error .empty)
  /-- The first field is no mnemonic, whatever follows. -/
  | unknownOperation {name : String} {operands : List String}
      (h : ∀ count, (name, count) ∉ operandCounts) :
      ReadAs (name :: operands) (.error (.unknownOperation name))
  /-- The mnemonic takes another number of operands, whatever they are. -/
  | operandCount {name : String} {operands : List String} {count : Nat}
      (h : (name, count) ∈ operandCounts) (hcount : operands.length ≠ count) :
      ReadAs (name :: operands) (.error (.operandCount name))
  /-- The first of two operands is no segment, whatever the second one is. -/
  | unknownSegment {name segment index : String} (hname : name = "push" ∨ name = "pop")
      (h : segment ∉ segmentNames) :
      ReadAs [name, segment, index] (.error (.unknownSegment segment))
  /-- The index is no numeral, or one for too great a number. -/
  | invalidIndex {name segment index : String} (hname : name = "push" ∨ name = "pop")
      (hsegment : segment ∈ segmentNames) (h : ∀ n, IsNumeral index.toList n → 65535 < n) :
      ReadAs [name, segment, index] (.error (.invalidIndex index))
  /-- The number of arguments or locals is no numeral, or one for too great a number. -/
  | invalidCount {name target count : String} (hname : name = "call" ∨ name = "function")
      (h : ∀ n, IsNumeral count.toList n → 65535 < n) :
      ReadAs [name, target, count] (.error (.invalidIndex count))
  | push {segment : Segment} {index : String} {n : UInt16}
      (h : IsNumeral index.toList n.toNat) :
      ReadAs ["push", segment.name, index] (.ok (push segment n))
  | pop {segment : Segment} {index : String} {n : UInt16} (h : IsNumeral index.toList n.toNat) :
      ReadAs ["pop", segment.name, index] (.ok (pop segment n))
  | label {target : String} : ReadAs ["label", target] (.ok (label target))
  | goto {target : String} : ReadAs ["goto", target] (.ok (goto target))
  | ifGoto {target : String} : ReadAs ["if-goto", target] (.ok (ifGoto target))
  | call {target args : String} {n : UInt16} (h : IsNumeral args.toList n.toNat) :
      ReadAs ["call", target, args] (.ok (call target n))
  | function {target locals : String} {n : UInt16} (h : IsNumeral locals.toList n.toNat) :
      ReadAs ["function", target, locals] (.ok (function target n))
  | ret : ReadAs ["return"] (.ok ret)
  | compute {op : Operation} : ReadAs [op.name] (.ok (compute op))

/-! ## The tables -/

/-- The number of operands of a mnemonic. -/
def arity : Mnemonic → Nat
  | .push | .pop | .call | .function => 2
  | .label | .goto | .ifGoto => 1
  | .ret | .compute _ => 0

/-- The table has each instruction with the number of its operands. -/
theorem mem_operandCounts {name : String} {count : Nat} :
    (name, count) ∈ operandCounts ↔ ∃ m : Mnemonic, m.name = name ∧ arity m = count := by
  have htable : operandCounts = Mnemonic.all.map fun m => (m.name, arity m) := by rfl
  have hall : ∀ m : Mnemonic, m ∈ Mnemonic.all := by
    intro m
    cases m with
    | compute op => cases op <;> decide
    | _ => decide
  simp [htable, hall]

/-- The table has the name of each segment. -/
theorem mem_segmentNames {s : String} : s ∈ segmentNames ↔ ∃ g : Segment, g.name = s := by
  have htable : segmentNames = Segment.all.map Segment.name := by rfl
  have hall : ∀ g : Segment, g ∈ Segment.all := by
    intro g
    cases g <;> decide
  simp [htable, hall]

/-- What is found under a name has that name. -/
theorem name_of_ofName? {name : String} {m : Mnemonic} (h : Mnemonic.ofName? name = some m) :
    m.name = name := by
  simpa using List.find?_some h

/-- No instruction is found under a name that is not in the table. -/
theorem ofName?_eq_none {name : String} :
    Mnemonic.ofName? name = none ↔ ∀ count, (name, count) ∉ operandCounts := by
  constructor
  · intro h count hmem
    obtain ⟨m, rfl, -⟩ := mem_operandCounts.1 hmem
    rw [Mnemonic.ofName?_name] at h
    cases h
  · intro h
    cases hm : Mnemonic.ofName? name with
    | none => rfl
    | some m => exact absurd (mem_operandCounts.2 ⟨m, name_of_ofName? hm, rfl⟩) (h (arity m))

/-! ## Operands -/

theorem segmentOperand_name (g : Segment) : segmentOperand g.name = .ok g := by
  rw [segmentOperand, Segment.ofName?_name]

/-- A segment that is not in the table is reported. -/
theorem segmentOperand_of_notMem {s : String} (h : s ∉ segmentNames) :
    segmentOperand s = .error (.unknownSegment s) := by
  cases hs : Segment.ofName? s with
  | none => rw [segmentOperand, hs]
  | some g =>
    have hname : g.name = s := by simpa using List.find?_some hs
    exact absurd (mem_segmentNames.2 ⟨g, hname⟩) h

/-- A number that is a word is read as such. -/
theorem wordOperand_of_isNumeral {s : String} {n : UInt16} (h : IsNumeral s.toList n.toNat) :
    wordOperand s = .ok n := by
  rw [wordOperand, Text.word?_eq_some.2 h]

/-- What is no word is reported. -/
theorem wordOperand_of_large {s : String} (h : ∀ n, IsNumeral s.toList n → 65535 < n) :
    wordOperand s = .error (.invalidIndex s) := by
  rw [wordOperand, Text.word?_eq_none.2 h]

/-! ## Reading -/

section

variable (segment target index : String)

theorem ofFields_push : ofFields ["push", segment, index]
    = do return push (← segmentOperand segment) (← wordOperand index) := rfl

theorem ofFields_pop : ofFields ["pop", segment, index]
    = do return pop (← segmentOperand segment) (← wordOperand index) := rfl

theorem ofFields_call : ofFields ["call", target, index]
    = do return call target (← wordOperand index) := rfl

theorem ofFields_function : ofFields ["function", target, index]
    = do return function target (← wordOperand index) := rfl

end

/-- A wrong number of operands is reported before anything else about them. -/
theorem ofFields_of_length_ne (m : Mnemonic) {operands : List String}
    (h : operands.length ≠ arity m) :
    ofFields (m.name :: operands) = .error (.operandCount m.name) := by
  rw [ofFields, Mnemonic.ofName?_name]
  dsimp only
  split
  case h_10 => rfl
  all_goals exact absurd rfl h

/-- **Fields are read as the rules say.** -/
theorem ofFields_of_readAs {fields : List String} {result : Except InstructionError Instruction}
    (h : ReadAs fields result) : ofFields fields = result := by
  cases h with
  | empty => rfl
  | unknownOperation h => rw [ofFields, ofName?_eq_none.2 h]
  | operandCount h hcount =>
    obtain ⟨m, rfl, rfl⟩ := mem_operandCounts.1 h
    exact ofFields_of_length_ne m hcount
  | unknownSegment hname h =>
    have hsegment := segmentOperand_of_notMem h
    rcases hname with rfl | rfl
    · rw [ofFields_push, hsegment]
      rfl
    · rw [ofFields_pop, hsegment]
      rfl
  | invalidIndex hname hmem h =>
    have hindex := wordOperand_of_large h
    obtain ⟨g, rfl⟩ := mem_segmentNames.1 hmem
    rcases hname with rfl | rfl
    · rw [ofFields_push, segmentOperand_name, hindex]
      rfl
    · rw [ofFields_pop, segmentOperand_name, hindex]
      rfl
  | invalidCount hname h =>
    have hcount := wordOperand_of_large h
    rcases hname with rfl | rfl
    · rw [ofFields_call, hcount]
      rfl
    · rw [ofFields_function, hcount]
      rfl
  | push h =>
    rw [ofFields_push, segmentOperand_name, wordOperand_of_isNumeral h]
    rfl
  | pop h =>
    rw [ofFields_pop, segmentOperand_name, wordOperand_of_isNumeral h]
    rfl
  | call h =>
    rw [ofFields_call, wordOperand_of_isNumeral h]
    rfl
  | function h =>
    rw [ofFields_function, wordOperand_of_isNumeral h]
    rfl
  | label | goto | ifGoto | ret => rfl
  | @compute op =>
    have hname : op.name = (Mnemonic.compute op).name := rfl
    rw [ofFields, hname, Mnemonic.ofName?_name]

/-- A text is a numeral for a machine word, or a numeral for a larger number, or none. -/
theorem isNumeral_or_large (cs : List Char) :
    (∃ n : UInt16, IsNumeral cs n.toNat) ∨ ∀ n, IsNumeral cs n → 65535 < n := by
  cases h : Text.word? cs with
  | some n => exact .inl ⟨n, Text.word?_eq_some.1 h⟩
  | none => exact .inr (Text.word?_eq_none.1 h)

/-- Two operands of an access are read, or one of them is reported. -/
theorem exists_readAs_access {name segment index : String} (hname : name = "push" ∨ name = "pop") :
    ∃ result, ReadAs [name, segment, index] result := by
  by_cases hsegment : segment ∈ segmentNames
  · rcases isNumeral_or_large index.toList with ⟨n, hn⟩ | hlarge
    · obtain ⟨g, rfl⟩ := mem_segmentNames.1 hsegment
      rcases hname with rfl | rfl
      · exact ⟨_, .push hn⟩
      · exact ⟨_, .pop hn⟩
    · exact ⟨_, .invalidIndex hname hsegment hlarge⟩
  · exact ⟨_, .unknownSegment hname hsegment⟩

/-- A target and a count are read, or the count is reported. -/
theorem exists_readAs_counted {name target count : String}
    (hname : name = "call" ∨ name = "function") :
    ∃ result, ReadAs [name, target, count] result := by
  rcases isNumeral_or_large count.toList with ⟨n, hn⟩ | hlarge
  · rcases hname with rfl | rfl
    · exact ⟨_, .call hn⟩
    · exact ⟨_, .function hn⟩
  · exact ⟨_, .invalidCount hname hlarge⟩

/-- The rules cover the fields that begin with a mnemonic and as many operands as it takes. -/
theorem exists_readAs_mnemonic (m : Mnemonic) {operands : List String}
    (h : operands.length = arity m) : ∃ result, ReadAs (m.name :: operands) result := by
  cases m with
  | push | pop =>
    obtain ⟨segment, index, rfl⟩ := List.length_eq_two.1 h
    exact exists_readAs_access (by simp [Mnemonic.name])
  | call | function =>
    obtain ⟨target, count, rfl⟩ := List.length_eq_two.1 h
    exact exists_readAs_counted (by simp [Mnemonic.name])
  | label =>
    obtain ⟨target, rfl⟩ := List.length_eq_one_iff.1 h
    exact ⟨_, .label⟩
  | goto =>
    obtain ⟨target, rfl⟩ := List.length_eq_one_iff.1 h
    exact ⟨_, .goto⟩
  | ifGoto =>
    obtain ⟨target, rfl⟩ := List.length_eq_one_iff.1 h
    exact ⟨_, .ifGoto⟩
  | ret =>
    obtain rfl := List.length_eq_zero_iff.1 h
    exact ⟨_, .ret⟩
  | compute op =>
    obtain rfl := List.length_eq_zero_iff.1 h
    exact ⟨_, .compute⟩

/-- The rules cover all fields. -/
theorem exists_readAs (fields : List String) : ∃ result, ReadAs fields result := by
  cases fields with
  | nil => exact ⟨_, .empty⟩
  | cons name operands =>
    by_cases hname : ∃ count, (name, count) ∈ operandCounts
    · obtain ⟨count, hcount⟩ := hname
      obtain ⟨m, rfl, rfl⟩ := mem_operandCounts.1 hcount
      by_cases hlength : operands.length = arity m
      · exact exists_readAs_mnemonic m hlength
      · exact ⟨_, .operandCount hcount hlength⟩
    · exact ⟨_, .unknownOperation (not_exists.1 hname)⟩

/-- **Fields are read as the rules say**, and in no other way. -/
theorem ofFields_eq_iff {fields : List String} {result : Except InstructionError Instruction} :
    ofFields fields = result ↔ ReadAs fields result := by
  refine ⟨fun h => ?_, ofFields_of_readAs⟩
  obtain ⟨result', hread⟩ := exists_readAs fields
  rwa [← h, ofFields_of_readAs hread]

/-- **What a text is read as.** A text spells an instruction, or has a fault, just as the rules say
of its fields. -/
theorem ofText_eq_iff (s : String) (result : Except InstructionError Instruction) :
    ofText s = result ↔ ∃ ws, HasFields s.toList ws ∧ ReadAs (ws.map String.ofList) result := by
  simp only [Text.hasFields_iff, exists_eq_left']
  exact ofFields_eq_iff

end Instruction

end JackCompiler
