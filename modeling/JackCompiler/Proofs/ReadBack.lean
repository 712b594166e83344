import JackCompiler.Proofs.EmittedNames
import JackCompiler.Proofs.RunLabels
import JackCompiler.Proofs.SourceClass
/-!
# Compiled code is read back from its text

The names of a class that a source spells are words, and so are the names of the types of its
variables. Every name in its code is made of such words, dots and digits. So it is one field of its
line, and the text of the code, with a line for each instruction, is read as the same code.
-/

namespace JackCompiler

/-! ## The names of a class are words -/

namespace Text

/-- A name that a source can spell is a field of the text. -/
theorem Solid.of_name {s : String} (h : (Token.Kind.name s).WellFormed) : Solid s.toList :=
  .of_isWordChar (Token.IsName.ne_nil h) (Token.IsName.wordChars h)

/-- So is the name of a type. -/
theorem Solid.of_type {type : VarType} (h : type.spelling.WellFormed) : Solid type.name.toList := by
  cases type with
  | object className => exact .of_name h
  | int | char | boolean => exact .of_all (by decide) (by decide)

/-- So is the name of a subroutine with its class. -/
theorem Solid.qualified {a b : String} (ha : Solid a.toList) (hb : Solid b.toList) :
    Solid (Emit.qualified a b).toList := by
  have hdot : Solid ['.'] := .of_all (by decide) (by decide)
  simpa [Emit.qualified] using (ha.append hdot).append hb

/-- So is a label. -/
theorem Solid.label {stem role : String} (h : (stem, role) ∈ Emit.labelRoles) (n : Nat) :
    Solid (Labels.text stem role n).toList := by
  have hstem : Solid (stem ++ "_" ++ role ++ "_").toList := by
    simp only [Emit.labelRoles, List.mem_cons, Prod.mk.injEq, List.not_mem_nil, or_false] at h
    rcases h with ⟨rfl, rfl⟩ | ⟨rfl, rfl⟩ | ⟨rfl, rfl⟩ | ⟨rfl, rfl⟩ <;>
      exact .of_all (by decide) (by decide)
  rw [Labels.text, String.toList_append, Nat.toList_repr]
  exact hstem.append (solid_toDigits n)

end Text

namespace SymbolTable

/-- The types of all variables have the property. -/
structure Typed (P : String → Prop) (t : SymbolTable) : Prop where
  classScope : ∀ s ∈ t.classScope, P s.type
  subroutineScope : ∀ s ∈ t.subroutineScope, P s.type

namespace Typed

variable {P : String → Prop} {t : SymbolTable}

/-- A variable with a type that has the property can be declared. -/
theorem define {type : String} (h : t.Typed P) (ht : P type) (name : String)
    (kind : SymbolKind) : (t.define name type kind).Typed P := by
  cases kind with
  | static | field => exact ⟨List.forall_mem_cons.2 ⟨ht, h.classScope⟩, h.subroutineScope⟩
  | argument | «local» => exact ⟨h.classScope, List.forall_mem_cons.2 ⟨ht, h.subroutineScope⟩⟩

/-- So can all the variables of a declaration. -/
theorem declare {d : VarDec} (h : t.Typed P) (hd : P d.type.name) (kind : SymbolKind) :
    (Emit.declare kind t d).Typed P :=
  List.foldlRecOn d.names _ h fun _ ht name _ => ht.define hd name kind

/-- The types of the variables of a class are those that its declarations name. -/
theorem classSymbols {c : Class} (h : ∀ v ∈ c.vars, P v.2.type.name) :
    (Emit.classSymbols c).Typed P :=
  List.foldlRecOn c.vars _ ⟨List.forall_mem_nil _, List.forall_mem_nil _⟩
    fun _ ht v hv => ht.declare (h v hv) (Emit.classVarKind v.1)

/-- The types in a subroutine are those known before it, the class, and those that it declares. -/
theorem subroutineSymbols {className : String} {sub : Subroutine} (h : t.Typed P)
    (hclass : P className) (hparameters : ∀ p ∈ sub.parameters, P p.type.name)
    (hlocals : ∀ d ∈ sub.locals, P d.type.name) :
    (Emit.subroutineSymbols className t sub).Typed P := by
  have hstart : t.startSubroutine.Typed P := ⟨h.classScope, List.forall_mem_nil _⟩
  unfold Emit.subroutineSymbols
  refine List.foldlRecOn sub.locals _ ?_ fun _ ht d hd => ht.declare (hlocals d hd) .local
  refine List.foldlRecOn sub.parameters _ ?_ fun _ ht p hp =>
    ht.define (hparameters p hp) p.name .argument
  split
  · exact hstart.define hclass _ _
  · exact hstart

/-- A variable that is found has one of the types. -/
theorem of_resolve (h : t.Typed P) {name : String} {s : Symbol} (hr : t.resolve name = some s) :
    P s.type := by
  rcases Option.or_eq_some_iff.1 hr with hs | ⟨-, hs⟩
  · exact h.subroutineScope s (List.mem_of_find?_eq_some hs)
  · exact h.classScope s (List.mem_of_find?_eq_some hs)

end Typed

end SymbolTable

namespace Emit

variable {ctx : Context} {calls : List Call}

/-- The name of the subroutine that a call goes to is a field, if the tokens of the call are ones
that a source can spell. -/
theorem solid_callInstruction (hclass : Text.Solid ctx.className.toList)
    (htypes : ctx.symbols.Typed fun type => Text.Solid type.toList) (c : Call)
    (hc : ∀ k ∈ Spelling.call c, k.WellFormed) :
    ∀ name ∈ (callInstruction ctx c).name?, Text.Solid name.toList := by
  obtain ⟨receiver, name, args⟩ := c
  cases receiver with
  | none =>
    have hname : Text.Solid name.toList := .of_name (hc _ (by simp [Spelling.call]))
    rintro _ ⟨⟩
    exact hclass.qualified hname
  | some r =>
    have hr : Text.Solid r.toList := .of_name (hc _ (by simp [Spelling.call]))
    have hname : Text.Solid name.toList := .of_name (hc (.name name) (by simp [Spelling.call]))
    intro callee hcallee
    cases hs : ctx.symbols.resolve r with
    | none =>
      simp only [callInstruction, hs] at hcallee
      cases hcallee
      exact hr.qualified hname
    | some s =>
      simp only [callInstruction, hs] at hcallee
      cases hcallee
      exact (htypes.of_resolve hs).qualified hname

/-- The names of the instructions of a statement are fields, if those of its calls are words. -/
theorem Named.readable {i : Instruction} (hclass : Text.Solid ctx.className.toList)
    (htypes : ctx.symbols.Typed fun type => Text.Solid type.toList)
    (hcalls : ∀ c ∈ calls, ∀ k ∈ Spelling.call c, k.WellFormed) (hi : Named ctx calls i) :
    i.Readable := by
  intro name hname
  refine Text.Solid.isField ?_
  cases hi with
  | nameless hi =>
    rw [hi] at hname
    cases hname
  | library hi =>
    simp only [libraryCalls, List.mem_cons, List.not_mem_nil, or_false] at hi
    rcases hi with rfl | rfl | rfl | rfl | rfl <;> cases hname <;>
      exact .of_all (by decide) (by decide)
  | call hc => exact solid_callInstruction hclass htypes _ (hcalls _ hc) name hname
  | label hrole hi =>
    rw [hi] at hname
    cases hname
    exact .label hrole _

/-- The code before the statements of a subroutine names only subroutines of the library. -/
theorem named_prologue (t : SymbolTable) (kind : SubroutineKind) :
    (prologue t kind).All (Named ctx calls) := by
  have halloc : Named ctx calls (.call "Memory.alloc" 1) := .library (by decide)
  cases kind <;> simp [prologue, halloc]

end Emit

/-! ## Where the names of a class are spelled -/

section

variable {c : Class} {sub : Subroutine}

/-- A subroutine is spelled with tokens of its class. -/
theorem Class.subset_spelling (h : sub ∈ c.subroutines) :
    Spelling.subroutine sub ⊆ c.spelling := by
  intro k hk
  have hmem : k ∈ c.subroutines.flatMap Spelling.subroutine := List.mem_flatMap.2 ⟨sub, h, hk⟩
  simp [Class.spelling, hmem]

/-- The type of a variable of a class is one of the tokens of the class. -/
theorem Class.varType_mem_spelling {kind : ClassVarKind} {d : VarDec} (h : (kind, d) ∈ c.vars) :
    d.type.spelling ∈ c.spelling := by
  simp only [Class.spelling, List.mem_cons, List.mem_append, List.mem_flatMap]
  exact .inr (.inr (.inr (.inl ⟨(kind, d), h, by simp [Spelling.varDec]⟩)))

/-- The type of a parameter is one of the tokens of its subroutine. -/
theorem Spelling.parameterType_mem {p : Parameter} (h : p ∈ sub.parameters) :
    p.type.spelling ∈ Spelling.subroutine sub := by
  have hmem : p.type.spelling ∈ commaSeparated
      (sub.parameters.map fun p => [p.type.spelling, .name p.name]) :=
    subset_commaSeparated (List.mem_map_of_mem h) List.mem_cons_self
  simp [Spelling.subroutine, Spelling.signature, hmem]

/-- The type of a local variable is one of the tokens of its subroutine. -/
theorem Spelling.localType_mem {d : VarDec} (h : d ∈ sub.locals) :
    d.type.spelling ∈ Spelling.subroutine sub := by
  have hmem : d.type.spelling ∈ sub.locals.flatMap fun d => .keyword .var :: Spelling.varDec d :=
    List.mem_flatMap.2 ⟨d, h, by simp [Spelling.varDec]⟩
  simp [Spelling.subroutine, hmem]

end

/-! ## Readable code -/

/-- **The instructions of a subroutine are readable** in a class of tokens that a source can
spell. -/
theorem Emit.readable_subroutine {c : Class} {sub : Subroutine} {body : Code} {l l' : Labels}
    (hc : ∀ k ∈ c.spelling, k.WellFormed) (hsub : sub ∈ c.subroutines)
    (he : subroutine c.name (classSymbols c) sub l = .ok body l') :
    body.All Instruction.Readable := by
  have hspelled : ∀ k ∈ Spelling.subroutine sub, k.WellFormed := fun k hk =>
    hc k (Class.subset_spelling hsub hk)
  have hclass : Text.Solid c.name.toList := .of_name (hc _ (by simp [Class.spelling]))
  have hname : Text.Solid sub.name.toList :=
    .of_name (hspelled _ (by simp [Spelling.subroutine, Spelling.signature]))
  have htypes : (Meaning.context c sub).symbols.Typed fun type => Text.Solid type.toList := by
    refine .subroutineSymbols (.classSymbols fun v hv => ?_) hclass (fun p hp => ?_) fun d hd => ?_
    · exact .of_type (hc _ (Class.varType_mem_spelling hv))
    · exact .of_type (hspelled _ (Spelling.parameterType_mem hp))
    · exact .of_type (hspelled _ (Spelling.localType_mem hd))
  have hcalls : ∀ call ∈ Calls.statements sub.body, ∀ k ∈ Spelling.call call, k.WellFormed := by
    intro call hcall k hk
    refine hspelled k ?_
    have hmem := Calls.spelling_statements sub.body call hcall hk
    simp [Spelling.subroutine, hmem]
  obtain ⟨inner, hi, rfl⟩ := subroutine_eq_ok.1 he
  have hreadable : ∀ i, Named (Meaning.context c sub) (Calls.statements sub.body) i →
      i.Readable := fun i hi => hi.readable hclass htypes hcalls
  refine Code.all_cons.2 ⟨?_, Code.all_append.2 ⟨?_, ?_⟩⟩
  · rintro _ ⟨⟩
    exact (hclass.qualified hname).isField
  · exact (named_prologue _ _).imp hreadable
  · exact (named_statements sub.body hi).imp hreadable

/-- **The instructions of a class are readable**, if its tokens are ones that a source can spell. -/
theorem Class.readable_emit {c : Class} {code : Code} {l l' : Labels}
    (hc : ∀ k ∈ c.spelling, k.WellFormed) (he : c.emit l = .ok code l') :
    code.All Instruction.Readable := by
  have hfunctions : ∀ body ∈ code.functions, body.All Instruction.Readable := by
    refine forall_mem_of_forall₂ ?_ (Class.forall₂_functions he)
    rintro sub hsub body ⟨l₁, l₂, hs⟩
    exact Emit.readable_subroutine hc hsub hs
  rw [← (Class.emit_eq_ok he).1]
  intro i hi
  obtain ⟨body, hbody, hi⟩ := List.mem_flatten.1 hi
  exact hfunctions body hbody i hi

/-- **Compiled code is read back from its text.** Whatever source the code comes from, reading its
text gives the same code, and the text has one line for each instruction. -/
theorem compile_ofText_text {source : String} {code : Code} {labels labels' : Labels}
    (h : compile source labels = .ok code labels') :
    Code.ofText code.text = .ok code ∧ (Text.lines code.text.toList).length = code.length := by
  obtain ⟨c, hsource, he⟩ := compile_eq_ok.1 h
  have hreadable := Class.readable_emit (Class.wellFormed_of_mem_spelling hsource) he
  refine ⟨Code.ofText_text hreadable, ?_⟩
  rw [Code.lines_text hreadable, List.length_map]

/-- A source with names of unusual characters and a label behind others. -/
def oddNames : String :=
  "class É# \x7b field É# n:; method int f(int a) \x7b"
    ++ " if (a) \x7b do n:.f(a * 2); \x7d return a; \x7d \x7d"

/-- The code of the source. -/
def oddNamesCode : Code :=
  [.function "É#.f" 0, .push .argument 0, .pop .pointer 0, .push .argument 1, .compute .not,
    .ifGoto "IF_FALSE_7", .push .this 0, .push .argument 1, .push .constant 2,
    .call "Math.multiply" 2, .call "É#.f" 2, .pop .temp 0, .goto "IF_END_7", .label "IF_FALSE_7",
    .label "IF_END_7", .push .argument 1, .ret]

theorem oddNames_readBack :
    compile oddNames ⟨7⟩ = .ok oddNamesCode ⟨8⟩ ∧ Code.ofText oddNamesCode.text = .ok oddNamesCode ∧
      (Text.lines oddNamesCode.text.toList).length = 17 := by
  have h : compile oddNames ⟨7⟩ = .ok oddNamesCode ⟨8⟩ :=
    Labels.eq_ok (by decide +kernel) (by decide +kernel)
  exact ⟨h, compile_ofText_text h⟩

end JackCompiler
