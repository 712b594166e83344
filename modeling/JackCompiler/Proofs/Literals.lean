import JackCompiler.Proofs.Emission
import JackCompiler.Proofs.SourceClass
import JackCompiler.Proofs.Terms
/-!
# Literals survive compilation

The literals of a class are the literal tokens of its source, in their order: reading neither drops
nor repeats one (`Class.filter_isLiteral_spelling`). The limits that the tokens keep to are those of
a constant on the stack. So no number in the code of a literal is cut off, and a string can be read
back from the code that makes it.
-/

namespace JackCompiler

open Token (Kind)

/-! ## The literals of a source -/

/-- The token is a literal: an integer or a string. -/
def Token.Kind.isLiteral : Kind → Bool
  | integer _ => true
  | string _ => true
  | _ => false

@[simp]
theorem Token.Kind.isLiteral_keyword (k : Keyword) : isLiteral (.keyword k) = false := rfl

@[simp]
theorem Token.Kind.isLiteral_symbol (c : Char) : isLiteral (.symbol c) = false := rfl

@[simp]
theorem Token.Kind.isLiteral_name (s : String) : isLiteral (.name s) = false := rfl

/-- A type is no literal. -/
@[simp]
theorem VarType.isLiteral_spelling (type : VarType) : type.spelling.isLiteral = false := by
  cases type <;> rfl

/-- The token of a term that is a literal. -/
def Term.literal? : Term → Option Kind
  | .integer n => some (.integer n)
  | .string s => some (.string s)
  | _ => none

/-- The commas between tokens are no literals. -/
theorem filter_isLiteral_commaSeparated (kss : List (List Kind)) :
    (commaSeparated kss).filter Kind.isLiteral = kss.flatMap (List.filter Kind.isLiteral) := by
  induction kss with
  | nil => rfl
  | cons first kss ih =>
    cases kss with
    | nil => simp [commaSeparated]
    | cons second kss =>
      rw [commaSeparated, List.intercalate_cons_cons, List.filter_append, List.filter_append,
        List.flatMap_cons, ← ih]
      simp [commaSeparated]

namespace Spelling

open Token.Kind (isLiteral)

mutual

/-- **The literals of an expression are its literal tokens.** -/
theorem filter_isLiteral_expr (e : Expr) :
    (expr e).filter isLiteral = (Terms.expr e).filterMap Term.literal? := by
  obtain ⟨head, tail⟩ := e
  rw [expr, Terms.expr, List.filter_append, List.filterMap_append, filter_isLiteral_term head,
    filter_isLiteral_operands tail]

/-- The literals of operands are their literal tokens. -/
theorem filter_isLiteral_operands (tail : List (BinaryOp × Term)) :
    (operands tail).filter isLiteral = (Terms.operands tail).filterMap Term.literal? := by
  match tail with
  | [] => rfl
  | (op, t) :: tail =>
    have hrest := filter_isLiteral_operands tail
    have hterm := filter_isLiteral_term t
    simp [operands, Terms.operands, hterm, hrest]

/-- The literals of a term are its literal tokens. -/
theorem filter_isLiteral_term (t : Term) :
    (term t).filter isLiteral = (Terms.term t).filterMap Term.literal? := by
  match t with
  | .integer _ | .string _ | .var _ => rfl
  | .constant c => cases c <;> rfl
  | .paren e =>
    have he := filter_isLiteral_expr e
    rw [Terms.term, List.filterMap_cons_none rfl, ← he]
    simp [term]
  | .unary op t =>
    have ht := filter_isLiteral_term t
    rw [Terms.term, List.filterMap_cons_none rfl, ← ht]
    simp [term]
  | .index name e =>
    have he := filter_isLiteral_expr e
    rw [Terms.term, List.filterMap_cons_none rfl, ← he]
    simp [term]
  | .call c =>
    rw [Terms.term, List.filterMap_cons_none rfl]
    exact filter_isLiteral_call c

/-- The literals of a call are its literal tokens. -/
theorem filter_isLiteral_call (c : Call) :
    (call c).filter isLiteral = (Terms.call c).filterMap Term.literal? := by
  obtain ⟨receiver, name, args⟩ := c
  have hargs := filter_isLiteral_arguments args
  cases receiver <;>
    simp [call, Terms.call, filter_isLiteral_commaSeparated, hargs]

/-- The literals of arguments are their literal tokens. -/
theorem filter_isLiteral_arguments (args : List Expr) :
    (arguments args).flatMap (List.filter isLiteral)
      = (Terms.arguments args).filterMap Term.literal? := by
  match args with
  | [] => rfl
  | e :: es =>
    rw [arguments, Terms.arguments, List.flatMap_cons, List.filterMap_append,
      filter_isLiteral_expr e, filter_isLiteral_arguments es]

end

mutual

/-- The literals of a statement are its literal tokens. -/
theorem filter_isLiteral_statement (s : Statement) :
    (statement s).filter isLiteral = (Terms.statement s).filterMap Term.literal? := by
  match s with
  | .assign name index value =>
    have hvalue := filter_isLiteral_expr value
    cases index with
    | none => simp [statement, Terms.statement, Terms.optional, hvalue]
    | some index =>
      have hindex := filter_isLiteral_expr index
      simp [statement, Terms.statement, Terms.optional, hvalue, hindex]
  | .branch condition yes none =>
    have hcondition := filter_isLiteral_expr condition
    have hyes := filter_isLiteral_statements yes
    simp [statement, Terms.statement, hcondition, hyes]
  | .branch condition yes (some no) =>
    have hcondition := filter_isLiteral_expr condition
    have hyes := filter_isLiteral_statements yes
    have hno := filter_isLiteral_statements no
    simp [statement, Terms.statement, hcondition, hyes, hno]
  | .loop condition body =>
    have hcondition := filter_isLiteral_expr condition
    have hbody := filter_isLiteral_statements body
    simp [statement, Terms.statement, hcondition, hbody]
  | .perform c =>
    have hc := filter_isLiteral_call c
    simp [statement, Terms.statement, hc]
  | .leave value =>
    cases value with
    | none => rfl
    | some e =>
      have he := filter_isLiteral_expr e
      simp [statement, Terms.statement, Terms.optional, he]

/-- The literals of a block are its literal tokens. -/
theorem filter_isLiteral_statements (block : List Statement) :
    (statements block).filter isLiteral = (Terms.statements block).filterMap Term.literal? := by
  match block with
  | [] => rfl
  | s :: block =>
    rw [statements, Terms.statements, List.filter_append, List.filterMap_append,
      filter_isLiteral_statement s, filter_isLiteral_statements block]

end

/-- Declarations have no literals. -/
theorem filter_isLiteral_varDec (d : VarDec) : (varDec d).filter isLiteral = [] := by
  have hnames : (commaSeparated (d.names.map fun name => [.name name])).filter isLiteral = [] := by
    rw [filter_isLiteral_commaSeparated]
    simp
  rw [varDec, List.filter_cons_of_neg (by simp), List.filter_append, hnames]
  rfl

/-- There are no literals in a signature. -/
theorem filter_isLiteral_signature (s : Signature) : (signature s).filter isLiteral = [] := by
  obtain ⟨kind, result, name, parameters⟩ := s
  have hparameters : (commaSeparated (parameters.map fun p =>
      [p.type.spelling, .name p.name])).filter isLiteral = [] := by
    rw [filter_isLiteral_commaSeparated]
    simp
  cases result <;>
    simp only [signature, List.filter_cons, List.filter_append, hparameters] <;> simp

/-- The literals of a subroutine are those of its body. -/
theorem filter_isLiteral_subroutine (sub : Subroutine) :
    (subroutine sub).filter isLiteral = (Terms.statements sub.body).filterMap Term.literal? := by
  have hlocals : (sub.locals.flatMap fun d => .keyword .var :: varDec d).filter isLiteral = [] := by
    rw [List.filter_flatMap]
    refine List.flatMap_eq_nil_iff.2 fun d _ => ?_
    rw [List.filter_cons_of_neg (by simp), filter_isLiteral_varDec]
  have hbody := filter_isLiteral_statements sub.body
  rw [subroutine, List.filter_append, filter_isLiteral_signature,
    List.filter_cons_of_neg (by simp), List.filter_append, hlocals]
  simp [hbody]

end Spelling

/-- **The literals of a class are its literal tokens**, in the order in which they are written. -/
theorem Class.filter_isLiteral_spelling (c : Class) :
    c.spelling.filter Kind.isLiteral = (Terms.ofClass c).filterMap Term.literal? := by
  have hsubroutines : (c.subroutines.flatMap Spelling.subroutine).filter Kind.isLiteral
      = (Terms.ofClass c).filterMap Term.literal? := by
    rw [Terms.ofClass, List.filter_flatMap, List.filterMap_flatMap]
    simp only [Spelling.filter_isLiteral_subroutine]
  rw [Class.spelling, List.filter_cons_of_neg (by simp), List.filter_cons_of_neg (by simp),
    List.filter_cons_of_neg (by simp), List.filter_append, List.filter_append, hsubroutines,
    List.filter_flatMap, List.flatMap_eq_nil_iff.2]
  · simp
  · -- the variables of the class are declared without literals
    rintro ⟨kind, d⟩ -
    rw [List.filter_cons_of_neg (by simp), Spelling.filter_isLiteral_varDec]

/-- A literal of a class is one of its tokens. -/
theorem Class.literal_mem_spelling {c : Class} {t : Term} {k : Kind} (h : t ∈ Terms.ofClass c)
    (hk : t.literal? = some k) : k ∈ c.spelling := by
  have hmem : k ∈ c.spelling.filter Kind.isLiteral := by
    rw [c.filter_isLiteral_spelling]
    exact List.mem_filterMap.2 ⟨t, h, hk⟩
  exact List.mem_of_mem_filter hmem

/-! ## The code of a literal -/

/-- The constants that a code pushes, in order. -/
def Code.constants (code : Code) : List UInt16 :=
  code.filterMap fun
    | .push .constant n => some n
    | _ => none

/-- The string that a code makes out of constants: the first is its length, the others are its
characters. -/
def Code.madeString (code : Code) : String :=
  String.ofList (code.constants.tail.map fun n => Char.ofNat n.toNat)

namespace Emit

/-- The code that makes a string of a length out of character codes. -/
def stringCode (length : UInt16) (codes : List UInt16) : Code :=
  .push .constant length :: .call "String.new" 1
    :: codes.flatMap fun n => [.push .constant n, .call "String.appendChar" 2]

/-- The codes of the characters of a text, as constants. -/
def characterCodes (s : String) : List UInt16 :=
  s.toList.map fun c => UInt16.ofNat c.toNat

/-- A string is made out of its length and the codes of its characters. -/
theorem string_eq_stringCode (s : String) :
    string s = stringCode (UInt16.ofNat s.length) (characterCodes s) := by
  simp [string, stringCode, characterCodes, List.flatMap_map]

/-- The constants in the code of a string are its length and the codes. -/
theorem constants_stringCode (length : UInt16) (codes : List UInt16) :
    (stringCode length codes).constants = length :: codes := by
  simp [stringCode, Code.constants, List.filterMap_flatMap]

/-- A number within the limit is a constant of its own. -/
theorem toNat_ofNat_of_le_limit {n : Nat} (h : n ≤ Token.limit) : (UInt16.ofNat n).toNat = n :=
  UInt16.toNat_ofNat_of_lt' (Nat.lt_of_le_of_lt h (by decide))

/-- Characters within the limit are written with their own codes. -/
theorem map_toNat_characterCodes {s : String} (h : ∀ c ∈ s.toList, c.toNat ≤ Token.limit) :
    (characterCodes s).map UInt16.toNat = s.toList.map Char.toNat := by
  rw [characterCodes, List.map_map]
  exact List.map_congr_left fun c hc => toNat_ofNat_of_le_limit (h c hc)

/-- **A string is read back from the code that makes it.** -/
theorem madeString_stringCode {s : String} (h : ∀ c ∈ s.toList, c.toNat ≤ Token.limit)
    (length : UInt16) : (stringCode length (characterCodes s)).madeString = s := by
  have hcodes : (characterCodes s).map (fun n => Char.ofNat n.toNat)
      = ((characterCodes s).map UInt16.toNat).map Char.ofNat := by
    rw [List.map_map]
    rfl
  have hchars : (s.toList.map Char.toNat).map Char.ofNat = s.toList := by
    rw [List.map_map]
    exact (List.map_congr_left fun c _ => Char.ofNat_toNat c).trans (List.map_id _)
  rw [Code.madeString, constants_stringCode, List.tail_cons, hcodes, map_toNat_characterCodes h,
    hchars, String.ofList_toList]

end Emit

/-- **Literals survive compilation.** The literals of the class are those of its source, none is
beyond what a constant holds, and the code of a string has its length and its characters exactly, so
that the string is read back from it. -/
theorem Class.literals_survive {source : String} {c : Class} (h : Class.ofSource source = .ok c) :
    (∃ tokens, Token.ofSource source = .ok tokens ∧
      (tokens.map Token.kind).filter Kind.isLiteral
        = (Terms.ofClass c).filterMap Term.literal?) ∧
    (∀ n, .integer n ∈ Terms.ofClass c →
      n.toNat ≤ 32767 ∧ ∀ ctx, Emit.term ctx (.integer n) = .ok [.push .constant n]) ∧
    ∀ s, .string s ∈ Terms.ofClass c → ∃ (length : UInt16) (codes : List UInt16),
      (∀ ctx, Emit.term ctx (.string s) = .ok (Emit.stringCode length codes)) ∧
      length.toNat = s.length ∧ codes.map UInt16.toNat = s.toList.map Char.toNat ∧
      length.toNat ≤ 32767 ∧ (∀ n ∈ codes, n.toNat ≤ 32767) ∧
      (Emit.stringCode length codes).madeString = s := by
  have hwell := Class.wellFormed_of_mem_spelling h
  refine ⟨?_, fun n hn => ?_, fun s hs => ?_⟩
  · obtain ⟨tokens, hlex, hread⟩ := Class.ofSource_eq_ok.1 h
    refine ⟨tokens, hlex, ?_⟩
    rw [← c.filter_isLiteral_spelling, (Class.spelling_of_ofTokens hread).2]
  · exact ⟨hwell _ (Class.literal_mem_spelling hn rfl),
      fun ctx => Emit.term_integer_eq_ok.2 rfl⟩
  · obtain ⟨hlength, hcode, -⟩ : Token.IsString s := hwell _ (Class.literal_mem_spelling hs rfl)
    have hexact : (UInt16.ofNat s.length).toNat = s.length := Emit.toNat_ofNat_of_le_limit hlength
    have hcodes := Emit.map_toNat_characterCodes hcode
    refine ⟨UInt16.ofNat s.length, Emit.characterCodes s,
      fun ctx => Emit.term_string_eq_ok.2 (Emit.string_eq_stringCode s).symm, hexact, hcodes,
      Nat.le_trans (Nat.le_of_eq hexact) hlength, fun n hn => ?_,
      Emit.madeString_stringCode hcode _⟩
    -- a code of the constants is the code of a character
    obtain ⟨char, hchar, rfl⟩ := List.mem_map.1 hn
    rw [Emit.toNat_ofNat_of_le_limit (hcode char hchar)]
    exact hcode char hchar

/-- A source with the largest integer, and a string of a quote, a backslash and the last character
that a string may have. -/
def extremes : String :=
  "class A \x7b function int f() \x7b do A.g(\"\\\"\\\u7fff\"); return 32767; \x7d \x7d"

/-- The class of the source. -/
def extremesClass : Class where
  name := "A"
  vars := []
  subroutines := [
    { kind := .function, result := some .int, name := "f", parameters := [], locals := [],
      body := [
        .perform (.mk (some "A") "g" [.mk (.string "\"\\\u7fff") []]),
        .leave (some (.mk (.integer 32767) []))] }]

theorem extremes_survive :
    Class.ofSource extremes = .ok extremesClass ∧
    (32767 : UInt16).toNat ≤ 32767 ∧
    ∃ (length : UInt16) (codes : List UInt16),
      (∀ ctx, Emit.term ctx (.string "\"\\\u7fff") = .ok (Emit.stringCode length codes)) ∧
      length.toNat = 3 ∧ codes.map UInt16.toNat = [34, 92, 32767] ∧
      (Emit.stringCode length codes).madeString = "\"\\\u7fff" := by
  have h : Class.ofSource extremes = .ok extremesClass :=
    Class.ofSource_of_spelling (by decide +kernel) ⟨by decide, by decide⟩
  obtain ⟨-, hinteger, hstring⟩ := Class.literals_survive h
  obtain ⟨length, codes, hcode, hlength, hcodes, -, -, hmade⟩ :=
    hstring "\"\\\u7fff" (.head _)
  exact ⟨h, (hinteger 32767 (.tail _ (.head _))).1, length, codes, hcode, hlength, hcodes, hmade⟩

end JackCompiler
