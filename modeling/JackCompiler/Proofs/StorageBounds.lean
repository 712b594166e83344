import JackCompiler.Proofs.SubroutineCode
/-!
# The cells that code uses

The variables of a kind are numbered from zero on, without gaps, so no name stands for a cell behind
the last variable of its kind (`SymbolTable.Numbered`). The code of a subroutine therefore keeps to
the cells that are declared for it (`Subroutine.cells`), and the current object, once set, is never
replaced: only what a constructor or a method does before its first statement sets it.
-/

namespace JackCompiler

/-! ## Numbering -/

namespace SymbolTable

variable {t : SymbolTable}

/-- The variables of each kind have numbers below their count. The variables that are known in the
whole class keep theirs in every subroutine, as they are static variables and fields. -/
structure Numbered (t : SymbolTable) : Prop where
  classScope : ∀ s ∈ t.classScope,
    (s.kind = .static ∨ s.kind = .field) ∧ s.index < t.count s.kind
  subroutineScope : ∀ s ∈ t.subroutineScope, s.index < t.count s.kind

namespace Numbered

theorem empty : Numbered {} :=
  ⟨by simp, by simp⟩

/-- At the beginning of a subroutine the variables of the class keep their numbers. -/
theorem startSubroutine (h : t.Numbered) : t.startSubroutine.Numbered := by
  refine ⟨?_, by simp [SymbolTable.startSubroutine]⟩
  intro s hs
  obtain ⟨hkind, hindex⟩ := h.classScope s hs
  refine ⟨hkind, ?_⟩
  rcases hkind with hkind | hkind <;> rw [hkind] at hindex ⊢ <;> exact hindex

/-- A further variable has the next number. -/
theorem define (h : t.Numbered) (name type : String) (kind : SymbolKind) :
    (t.define name type kind).Numbered := by
  have hkeep : ∀ s : Symbol, s.index < t.count s.kind →
      s.index < (t.define name type kind).count s.kind := by
    intro s hs
    rw [count_define]
    omega
  have hnew : t.count kind < (t.define name type kind).count kind := by
    rw [count_define, if_pos rfl]
    omega
  have hclass : ∀ s ∈ t.classScope, (s.kind = .static ∨ s.kind = .field) ∧
      s.index < (t.define name type kind).count s.kind := by
    intro s hs
    obtain ⟨hkind, hindex⟩ := h.classScope s hs
    exact ⟨hkind, hkeep s hindex⟩
  have hsub : ∀ s ∈ t.subroutineScope, s.index < (t.define name type kind).count s.kind :=
    fun s hs => hkeep s (h.subroutineScope s hs)
  cases kind with
  | static => exact ⟨List.forall_mem_cons.2 ⟨⟨.inl rfl, hnew⟩, hclass⟩, hsub⟩
  | field => exact ⟨List.forall_mem_cons.2 ⟨⟨.inr rfl, hnew⟩, hclass⟩, hsub⟩
  | argument => exact ⟨hclass, List.forall_mem_cons.2 ⟨hnew, hsub⟩⟩
  | «local» => exact ⟨hclass, List.forall_mem_cons.2 ⟨hnew, hsub⟩⟩

/-- What each step keeps, all steps keep. -/
theorem foldl {α : Type} {f : SymbolTable → α → SymbolTable}
    (hf : ∀ t a, Numbered t → Numbered (f t a)) (xs : List α) (h : t.Numbered) :
    (xs.foldl f t).Numbered :=
  List.foldlRecOn xs f h fun t ht a _ => hf t a ht

/-- So have the variables of a declaration. -/
theorem declare (h : t.Numbered) (kind : SymbolKind) (d : VarDec) :
    (Emit.declare kind t d).Numbered :=
  h.foldl (fun _ name ht => ht.define name d.type.name kind) d.names

/-- The variables of a class are numbered. -/
theorem classSymbols (c : Class) : (Emit.classSymbols c).Numbered :=
  empty.foldl (fun _ p ht => ht.declare (Emit.classVarKind p.1) p.2) c.vars

/-- So are those of a subroutine. -/
theorem subroutineSymbols (h : t.Numbered) (className : String) (sub : Subroutine) :
    (Emit.subroutineSymbols className t sub).Numbered := by
  unfold Emit.subroutineSymbols
  refine foldl (fun _ d ht => ht.declare .local d) _ ?_
  refine foldl (fun _ p ht => ht.define p.name p.type.name .argument) _ ?_
  split
  · exact h.startSubroutine.define _ _ _
  · exact h.startSubroutine

/-- **A name never stands for a variable behind the last one of its kind.** -/
theorem index_lt (h : t.Numbered) {name : String} {s : Symbol} (hr : t.resolve name = some s) :
    s.index < t.count s.kind := by
  rcases Option.or_eq_some_iff.1 hr with hs | ⟨-, hs⟩
  · exact h.subroutineScope s (List.mem_of_find?_eq_some hs)
  · exact (h.classScope s (List.mem_of_find?_eq_some hs)).2

end Numbered

end SymbolTable

/-! ## What is declared -/

/-- The static variables of a class, in order. -/
def Class.staticNames (c : Class) : List String :=
  c.vars.flatMap fun (kind, d) => if kind = .static then d.names else []

namespace Subroutine

/-- How many variables of a kind are declared for a subroutine. The object of a method is one of its
arguments. -/
def declared (c : Class) (sub : Subroutine) : SymbolKind → Nat
  | .static => c.staticNames.length
  | .field => c.fieldNames.length
  | .argument => sub.parameters.length + if sub.kind = .method then 1 else 0
  | .local => sub.localNames.length

/-- How many cells of a segment there are for a subroutine to use. A constant is no cell; of an
array, the code reaches one entry at a time. -/
def cells (c : Class) (sub : Subroutine) : Segment → Nat
  | .static => declared c sub .static
  | .this => declared c sub .field
  | .argument => declared c sub .argument
  | .local => declared c sub .local
  | .pointer => 2
  | .that => 1
  | .temp => 1
  | .constant => 0

/-- A segment has a cell for each variable that is kept there. -/
theorem cells_segment (c : Class) (sub : Subroutine) (kind : SymbolKind) :
    sub.cells c kind.segment = sub.declared c kind := by
  cases kind <;> rfl

end Subroutine

/-- The class has fewer variables of each kind than there are words. -/
def Class.VariablesFit (c : Class) : Prop :=
  ∀ sub ∈ c.subroutines, ∀ kind, sub.declared c kind < 65536

namespace Emit

/-- A method has its object as an argument before its parameters. -/
theorem count_arguments {className : String} {t : SymbolTable} {sub : Subroutine} :
    (subroutineSymbols className t sub).count .argument
      = sub.parameters.length + if sub.kind = .method then 1 else 0 := by
  have hobject : (if sub.kind = .method then t.startSubroutine.define "this" className .argument
      else t.startSubroutine).count .argument = if sub.kind = .method then 1 else 0 := by
    split <;> rfl
  have hparameter : ∀ (t : SymbolTable) (p : Parameter),
      (t.define p.name p.type.name .argument).count .argument
        = t.count .argument + [p.name].length :=
    fun t p => t.count_define ..
  unfold subroutineSymbols
  rw [count_foldl _ fun t d => count_declare .local .argument t d, count_foldl _ hparameter,
    hobject]
  simp [Nat.add_comm]

/-- A subroutine knows as many variables of a kind as are declared. -/
theorem count_context (c : Class) (sub : Subroutine) (kind : SymbolKind) :
    (Meaning.context c sub).symbols.count kind = sub.declared c kind := by
  cases kind with
  | static => exact count_classVars .static
  | field => exact count_fields
  | argument => exact count_arguments
  | «local» => exact count_locals

end Emit

/-! ## Within the cells -/

/-- The instruction reads constants and existing cells only, and writes existing cells only. -/
def Instruction.Within (cells : Segment → Nat) : Instruction → Prop
  | push segment i => segment = .constant ∨ i.toNat < cells segment
  | pop segment i => segment ≠ .constant ∧ i.toNat < cells segment
  | _ => True

namespace Emit

variable {c : Class} {sub : Subroutine}

/-- The number of a variable, as a word, is one of the cells for its kind. -/
theorem ofNat_index_lt_cells {name : String} {s : Symbol}
    (hs : (Meaning.context c sub).symbols.resolve name = some s) :
    (UInt16.ofNat s.index).toNat < sub.cells c s.kind.segment := by
  have hnumbered : (Meaning.context c sub).symbols.Numbered :=
    (SymbolTable.Numbered.classSymbols c).subroutineSymbols c.name sub
  have hindex := hnumbered.index_lt hs
  rw [count_context] at hindex
  rw [Subroutine.cells_segment, UInt16.toNat_ofNat']
  exact Nat.lt_of_le_of_lt (Nat.mod_le _ _) hindex

/-- An instruction of an expression uses a cell that there is. -/
theorem within_ofExpr {i : Instruction} (h : OfExpr (Meaning.context c sub) i) :
    i.Within (sub.cells c) := by
  cases h with
  | constant => exact .inl rfl
  | read hs => exact .inr (ofNat_index_lt_cells hs)
  | @write _ s hs => exact ⟨by cases s.kind <;> decide, ofNat_index_lt_cells hs⟩
  | object => exact .inr Nat.two_pos
  | address => exact ⟨by decide, Nat.one_lt_two⟩
  | readEntry | takeBack => exact .inr Nat.one_pos
  | writeEntry | putAside => exact ⟨by decide, Nat.one_pos⟩
  | compute | call => exact trivial

/-- So does an instruction of a statement. -/
theorem within_ofStatement {i : Instruction} (h : OfStatement (Meaning.context c sub) i) :
    i.Within (sub.cells c) := by
  cases h with
  | ofExpr h => exact within_ofExpr h
  | label | goto | ifGoto | ret => exact trivial

/-- So do the instructions before the statements of a subroutine. -/
theorem within_prologue (t : SymbolTable) :
    Code.All (Instruction.Within (sub.cells c)) (prologue t sub.kind) := by
  cases hk : sub.kind <;>
    simp [prologue, Instruction.Within, Subroutine.cells, Subroutine.declared, hk]

/-- No statement sets the current object. -/
theorem OfStatement.ne_setObject {ctx : Context} {i : Instruction} (h : OfStatement ctx i) :
    i ≠ .pop .pointer 0 := by
  intro hi
  cases h with
  | ofExpr h =>
    cases h with
    | @write _ s =>
      -- variables live in other segments
      cases hk : s.kind <;> simp [popSymbol, SymbolKind.segment, hk] at hi
    | address => exact absurd hi (by decide)
    | _ => cases hi
  | label | goto | ifGoto | ret => cases hi

/-- A constructor and a method set the current object last of all before their first statement. -/
theorem eq_of_setObject_prologue {t : SymbolTable} {kind : SubroutineKind} {i : Nat}
    (h : (prologue t kind)[i]? = some (.pop .pointer 0)) :
    kind ≠ .function ∧ i + 1 = (prologue t kind).length := by
  cases kind with
  | constructor => rcases i with _ | _ | _ | i <;> simp_all [prologue]
  | method => rcases i with _ | _ | i <;> simp_all [prologue]
  | function => simp [prologue] at h

end Emit

/-- The code of a subroutine uses the cells that are declared for it and no others. The function
says how many local ones there are; and the current object is set by the last instruction before
the first statement, or not at all. -/
def StaysInside (c : Class) (sub : Subroutine) (body : Code) : Prop :=
  ∃ n inner, body = .function (c.name ++ "." ++ sub.name) n
      :: (Emit.prologue (Meaning.context c sub).symbols sub.kind ++ inner) ∧
    n.toNat = sub.localNames.length ∧
    body.All (Instruction.Within (sub.cells c)) ∧
    ∀ i, body[i]? = some (.pop .pointer 0) → sub.kind ≠ .function ∧
      i = (Emit.prologue (Meaning.context c sub).symbols sub.kind).length

/-- **Code stays inside what is declared, and keeps its object.** -/
theorem Class.emit_staysInside {c : Class} {code : Code} {labels labels' : Labels}
    (he : c.emit labels = .ok code labels') (hfit : c.VariablesFit) :
    List.Forall₂ (StaysInside c) c.subroutines code.functions := by
  have hall := (List.forall₂_and_left _ _).2 ⟨hfit, Class.forall₂_functions he⟩
  refine hall.imp ?_
  rintro sub body ⟨hfit, l, l', hs⟩
  obtain ⟨inner, hi, rfl⟩ := Emit.subroutine_eq_ok.1 hs
  have hinner := Emit.ofStatement_statements sub.body hi
  refine ⟨_, inner, rfl, ?_, ?_, ?_⟩
  · exact UInt16.toNat_ofNat_of_lt' (hfit .local)
  · exact Code.all_cons.2 ⟨trivial, Code.all_append.2
      ⟨Emit.within_prologue _, hinner.imp fun _ => Emit.within_ofStatement⟩⟩
  · intro i hset
    obtain _ | i := i
    · cases hset
    rw [List.getElem?_cons_succ, List.getElem?_append] at hset
    split at hset
    · exact Emit.eq_of_setObject_prologue hset
    · exact absurd rfl (hinner _ (List.mem_of_getElem? hset)).ne_setObject

/-- A class with variables of every kind, whose method writes to an array in a field. -/
def ledgerClass : Class where
  name := "Ledger"
  vars := [(.static, ⟨.int, ["opened"]⟩), (.field, ⟨.int, ["sum", "size"]⟩),
    (.field, ⟨.object "Array", ["rows"]⟩)]
  subroutines := [
    { kind := .constructor
      result := some (.object "Ledger")
      name := "new"
      parameters := [⟨.int, "start"⟩]
      locals := []
      body := [
        .assign "opened" none (.mk (.var "opened") [(.add, .integer 1)]),
        .assign "sum" none (.mk (.var "start") []),
        .leave (some (.mk (.constant .this) []))] },
    { kind := .method
      result := none
      name := "enter"
      parameters := [⟨.int, "amount"⟩]
      locals := [⟨.int, ["row", "old"]⟩]
      body := [
        .assign "row" none (.mk (.var "size") []),
        .assign "old" none (.mk (.index "rows" (.mk (.var "row") [])) []),
        .assign "rows" (some (.mk (.var "row") [])) (.mk (.var "old") [(.add, .var "amount")]),
        .leave none] }]

theorem ledgerClass_staysInside :
    ∃ code labels', ledgerClass.emit {} = .ok code labels' ∧ ledgerClass.VariablesFit ∧
      List.Forall₂ (StaysInside ledgerClass) ledgerClass.subroutines code.functions := by
  have hfit : ledgerClass.VariablesFit := by
    intro sub hsub kind
    simp only [ledgerClass, List.mem_cons, List.not_mem_nil, or_false] at hsub
    rcases hsub with rfl | rfl <;> cases kind <;> decide
  obtain ⟨code, labels', he⟩ : ∃ code labels', ledgerClass.emit {} = .ok code labels' :=
    ⟨_, _, rfl⟩
  exact ⟨code, labels', he, hfit, Class.emit_staysInside he hfit⟩

end JackCompiler
