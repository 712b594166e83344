import JackCompiler.Proofs.Emission
/-!
# Subroutines are compiled in isolation

The subroutines of a class can be compiled one after the other with one table, which each of them
finds as the one before it left it: full of arguments and local variables that it did not declare,
with their counts, and with the flag of another result (`Emit.Context.enter`). Nothing of that is
seen again. Entering a subroutine forgets all that the last one put into the table, and what it puts
there never touches the variables of the class. So the code is the one that each subroutine has from
the table of the class alone, and the subroutines of a class can be compiled in two parts.
-/

namespace JackCompiler

/-! ## What a subroutine leaves in the table -/

namespace SymbolTable

/-- Arguments and local variables are forgotten when a subroutine starts. -/
theorem startSubroutine_define {kind : SymbolKind} (h : kind = .argument ∨ kind = .local)
    (t : SymbolTable) (name type : String) :
    (t.define name type kind).startSubroutine = t.startSubroutine := by
  rcases h with rfl | rfl <;> rfl

/-- What each definition leaves to the next subroutine, all of them do. -/
theorem startSubroutine_foldl {α : Type} {f : SymbolTable → α → SymbolTable}
    (hf : ∀ t a, (f t a).startSubroutine = t.startSubroutine) (xs : List α) (t : SymbolTable) :
    (xs.foldl f t).startSubroutine = t.startSubroutine := by
  induction xs generalizing t with
  | nil => rfl
  | cons a xs ih => exact (ih (f t a)).trans (hf t a)

theorem startSubroutine_startSubroutine (t : SymbolTable) :
    t.startSubroutine.startSubroutine = t.startSubroutine := rfl

end SymbolTable

namespace Emit

open SymbolTable

/-- **A subroutine leaves nothing to the next one.** -/
theorem startSubroutine_subroutineSymbols (className : String) (t : SymbolTable)
    (sub : Subroutine) :
    (subroutineSymbols className t sub).startSubroutine = t.startSubroutine := by
  have hlocal : ∀ (t : SymbolTable) (d : VarDec),
      (declare .local t d).startSubroutine = t.startSubroutine := fun t d =>
    startSubroutine_foldl (fun t name => startSubroutine_define (.inr rfl) t name d.type.name)
      d.names t
  have hparameter : ∀ (t : SymbolTable) (p : Parameter),
      (t.define p.name p.type.name .argument).startSubroutine = t.startSubroutine := fun t p =>
    startSubroutine_define (.inl rfl) t p.name p.type.name
  unfold subroutineSymbols
  rw [startSubroutine_foldl hlocal, startSubroutine_foldl hparameter]
  split
  · rw [startSubroutine_define (.inl rfl), startSubroutine_startSubroutine]
  · exact startSubroutine_startSubroutine t

/-- The variables in a subroutine depend on the table only through what is kept when it starts. -/
theorem subroutineSymbols_congr {className : String} {t t' : SymbolTable} {sub : Subroutine}
    (h : t.startSubroutine = t'.startSubroutine) :
    subroutineSymbols className t sub = subroutineSymbols className t' sub := by
  unfold subroutineSymbols
  rw [h]

/-! ## One table for all subroutines -/

/-- What is known before the first subroutine of a class. -/
def Context.ofClass (c : Class) : Context :=
  { className := c.name, symbols := classSymbols c, isVoid := false }

/-- What is known in a subroutine that comes after others: the table is the one that they left, with
the variables of the subroutine added after a new start. -/
def Context.enter (ctx : Context) (sub : Subroutine) : Context :=
  { ctx with
    symbols := subroutineSymbols ctx.className ctx.symbols sub
    isVoid := sub.result.isNone }

/-- The code of a subroutine that has been entered. -/
def entered (ctx : Context) (sub : Subroutine) : EmitM Code := do
  let body ← statements ctx sub.body
  return .function (qualified ctx.className sub.name) (UInt16.ofNat (ctx.symbols.count .local))
    :: (prologue ctx.symbols sub.kind ++ body)

/-- The code of subroutines that use one table, each as the one before it left it. -/
def inTurn (ctx : Context) : List Subroutine → EmitM Code
  | [] => return []
  | sub :: subs => do
    let ctx := ctx.enter sub
    let first ← entered ctx sub
    let others ← inTurn ctx subs
    return first ++ others

/-- Subroutines in turn are the first of them in turn, and then the others with what those left. -/
theorem inTurn_append (ctx : Context) (first second : List Subroutine) :
    inTurn ctx (first ++ second) = (do
      let code ← inTurn ctx first
      let others ← inTurn (first.foldl .enter ctx) second
      return code ++ others) := by
  induction first generalizing ctx with
  | nil => simp [inTurn]
  | cons sub first ih =>
    simp only [List.cons_append, List.foldl_cons, inTurn, ih, bind_assoc, pure_bind,
      List.append_assoc]

/-- The context has the name of the class, and its table differs from that of the class only in what
is forgotten when a subroutine starts. -/
structure Context.Serves (ctx : Context) (c : Class) : Prop where
  className : ctx.className = c.name
  symbols : ctx.symbols.startSubroutine = (classSymbols c).startSubroutine

namespace Context.Serves

variable {ctx : Context} {c : Class}

theorem ofClass (c : Class) : (Context.ofClass c).Serves c :=
  ⟨rfl, rfl⟩

theorem enter (h : ctx.Serves c) (sub : Subroutine) : (ctx.enter sub).Serves c where
  className := h.className
  symbols := (startSubroutine_subroutineSymbols ctx.className ctx.symbols sub).trans h.symbols

theorem foldl_enter (h : ctx.Serves c) (subs : List Subroutine) :
    (subs.foldl Context.enter ctx).Serves c := by
  induction subs generalizing ctx with
  | nil => exact h
  | cons sub subs ih => exact ih (h.enter sub)

/-- **Whatever the subroutines before it left**, a subroutine is entered as from the table of the
class. -/
theorem enter_eq (h : ctx.Serves c) (sub : Subroutine) :
    ctx.enter sub = (Context.ofClass c).enter sub := by
  unfold Context.enter
  rw [h.className, subroutineSymbols_congr h.symbols]
  rfl

/-- Subroutines that use one table have the code that they have from the table of the class. -/
theorem inTurn_eq (h : ctx.Serves c) (subs : List Subroutine) :
    inTurn ctx subs = List.flatten <$> subs.mapM (subroutine c.name (classSymbols c)) := by
  induction subs generalizing ctx with
  | nil => rfl
  | cons sub subs ih =>
    have hfirst : entered ((Context.ofClass c).enter sub) sub
        = subroutine c.name (classSymbols c) sub := rfl
    rw [inTurn, List.mapM_cons, h.enter_eq, hfirst, ih ((ofClass c).enter sub)]
    simp

end Context.Serves

end Emit

/-! ## Parts of a class -/

theorem Class.emit_eq_inTurn (c : Class) :
    c.emit = Emit.inTurn (.ofClass c) c.subroutines := by
  rw [(Emit.Context.Serves.ofClass c).inTurn_eq, Class.emit, map_eq_pure_bind]

/-- **Subroutines are compiled in isolation.** A class with two lists of subroutines is compiled by
compiling the class with the first list, then, with the labels that are left, the class with the
second list, and joining their code; the first of the two that fails is the failure of the whole.
It makes no difference that one table serves all subroutines: a class is compiled as if it did, and
what the first list leaves in the table has no effect on the second. -/
theorem Class.emit_append (name : String) (vars : List (ClassVarKind × VarDec))
    (first second : List Subroutine) :
    (Class.mk name vars (first ++ second)).emit = (do
      let code ← (Class.mk name vars first).emit
      let others ← (Class.mk name vars second).emit
      return code ++ others) ∧
    (Class.mk name vars (first ++ second)).emit
      = Emit.inTurn (.ofClass ⟨name, vars, first ++ second⟩) (first ++ second) ∧
    Emit.inTurn (first.foldl .enter (.ofClass ⟨name, vars, first⟩)) second
      = (Class.mk name vars second).emit := by
  -- the context of a class does not depend on its subroutines
  have hserves : (Emit.Context.ofClass ⟨name, vars, first⟩).Serves ⟨name, vars, second⟩ :=
    ⟨rfl, rfl⟩
  have hsecond : Emit.inTurn (first.foldl .enter (.ofClass ⟨name, vars, first⟩)) second
      = (Class.mk name vars second).emit := by
    rw [(hserves.foldl_enter first).inTurn_eq, Class.emit_eq_inTurn,
      (Emit.Context.Serves.ofClass _).inTurn_eq]
  refine ⟨?_, Class.emit_eq_inTurn _, hsecond⟩
  calc (Class.mk name vars (first ++ second)).emit
      = Emit.inTurn (.ofClass ⟨name, vars, first⟩) (first ++ second) := Class.emit_eq_inTurn _
    _ = _ := by rw [Emit.inTurn_append, hsecond, Class.emit_eq_inTurn ⟨name, vars, first⟩]

end JackCompiler
