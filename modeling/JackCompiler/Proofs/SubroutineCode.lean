import JackCompiler.Proofs.FreshLabels
import JackCompiler.Proofs.StatementCode
import Mathlib.Data.List.Forall2
/-!
# The code of a class does what its subroutines mean

The code of a class falls into one function for each subroutine. A function first makes the memory
in which the statements of the subroutine begin, and from there it runs as they do: it returns a
word and a global state exactly when the subroutine does (`Implements`).
-/

namespace JackCompiler

/-! ## Declarations -/

namespace Emit

/-- How many variables of a kind are defined by one step after the other. -/
theorem count_foldl {α : Type} {f : SymbolTable → α → SymbolTable} {k : SymbolKind}
    (names : α → List String) (h : ∀ t a, (f t a).count k = t.count k + (names a).length)
    (xs : List α) (t : SymbolTable) :
    (xs.foldl f t).count k = t.count k + (xs.flatMap names).length := by
  induction xs generalizing t with
  | nil => rfl
  | cons a xs ih =>
    rw [List.foldl_cons, ih, h, List.flatMap_cons, List.length_append]
    omega

theorem count_declare (kind k : SymbolKind) (t : SymbolTable) (d : VarDec) :
    (declare kind t d).count k = t.count k + (if k = kind then d.names else []).length := by
  have hdefine : ∀ (t : SymbolTable) (name : String),
      (t.define name d.type.name kind).count k
        = t.count k + (if k = kind then [name] else []).length := by
    intro t name
    rw [SymbolTable.count_define]
    split <;> rfl
  unfold declare
  rw [count_foldl _ hdefine]
  split <;> simp

theorem count_parameters {k : SymbolKind} (hk : k ≠ .argument) (ps : List Parameter)
    (t : SymbolTable) :
    (ps.foldl (fun t p => t.define p.name p.type.name .argument) t).count k = t.count k := by
  rw [count_foldl (fun _ => []) fun t p => by rw [t.count_define, if_neg hk]; rfl]
  simp

/-- The variables of a subroutine are those known before it, its arguments and its local ones. -/
theorem count_subroutineSymbols {className : String} {t : SymbolTable} {sub : Subroutine}
    {k : SymbolKind} (hk : k ≠ .argument) :
    (subroutineSymbols className t sub).count k
      = t.startSubroutine.count k + if k = .local then sub.localNames.length else 0 := by
  have hobject : (if sub.kind = .method then t.startSubroutine.define "this" className .argument
      else t.startSubroutine).count k = t.startSubroutine.count k := by
    split
    · rw [SymbolTable.count_define, if_neg hk, Nat.add_zero]
    · rfl
  unfold subroutineSymbols
  rw [count_foldl _ fun t d => count_declare .local k t d, count_parameters hk, hobject]
  split <;> simp [Subroutine.localNames]

theorem count_locals {className : String} {t : SymbolTable} {sub : Subroutine} :
    (subroutineSymbols className t sub).count .local = sub.localNames.length := by
  rw [count_subroutineSymbols (by decide), if_pos rfl]
  exact Nat.zero_add _

/-- The variables of a class are those that it declares, in all its subroutines. -/
theorem count_classVars {c : Class} {sub : Subroutine} (kind : ClassVarKind) :
    (subroutineSymbols c.name (classSymbols c) sub).count (classVarKind kind)
      = (c.vars.flatMap fun p => if p.1 = kind then p.2.names else []).length := by
  have hvars : ∀ (t : SymbolTable) (p : ClassVarKind × VarDec),
      (declare (classVarKind p.1) t p.2).count (classVarKind kind)
        = t.count (classVarKind kind) + (if p.1 = kind then p.2.names else []).length := by
    rintro t ⟨kind', d⟩
    rw [count_declare]
    cases kind <;> cases kind' <;> rfl
  have hstart : (classSymbols c).startSubroutine.count (classVarKind kind)
      = (classSymbols c).count (classVarKind kind) := by
    cases kind <;> rfl
  rw [count_subroutineSymbols (by cases kind <;> decide), if_neg (by cases kind <;> decide),
    Nat.add_zero, hstart]
  unfold classSymbols
  rw [count_foldl _ hvars]
  cases kind <;> exact Nat.zero_add _

theorem count_fields {c : Class} {sub : Subroutine} :
    (subroutineSymbols c.name (classSymbols c) sub).count .field = c.fieldNames.length :=
  count_classVars .field

/-! ## The functions of a class -/

theorem subroutine_eq_ok {c : Class} {sub : Subroutine} {code : Code} {l l' : Labels} :
    subroutine c.name (classSymbols c) sub l = .ok code l' ↔
      ∃ inner, statements (Meaning.context c sub) sub.body l = .ok inner l' ∧
        code = .function (qualified c.name sub.name) (UInt16.ofNat sub.localNames.length)
          :: (prologue (Meaning.context c sub).symbols sub.kind ++ inner) := by
  simp only [subroutine, Fallible.run_bind_eq_ok, Fallible.run_pure_eq_ok, count_locals]
  constructor
  · rintro ⟨inner, l₁, hi, rfl, rfl⟩
    exact ⟨inner, hi, rfl⟩
  · rintro ⟨inner, hi, rfl⟩
    exact ⟨inner, _, hi, rfl, rfl⟩

/-- Emitting one thing after the other gives the code of each. -/
theorem forall₂_of_mapM_eq_ok {α : Type} {f : α → EmitM Code} (xs : List α) {codes : List Code}
    {l l' : Labels} (h : xs.mapM f l = .ok codes l') :
    List.Forall₂ (fun a code => ∃ l₁ l₂, f a l₁ = .ok code l₂) xs codes := by
  induction xs generalizing l codes with
  | nil =>
    obtain ⟨rfl, -⟩ := Fallible.run_pure_eq_ok.1 h
    exact .nil
  | cons a xs ih =>
    rw [List.mapM_cons] at h
    obtain ⟨code, l₁, hc, h⟩ := Fallible.run_bind_eq_ok.1 h
    obtain ⟨others, l₂, ho, h⟩ := Fallible.run_bind_eq_ok.1 h
    obtain ⟨rfl, rfl⟩ := Fallible.run_pure_eq_ok.1 h
    exact .cons ⟨l, l₁, hc⟩ (ih ho)

end Emit

/-- The functions of the code, each with all that comes before the next one. -/
def Code.functions : Code → List Code
  | [] => []
  | i :: rest =>
    if i.isFunction then (i :: rest.takeWhile fun j => !j.isFunction) :: functions rest
    else functions rest

/-- Code that is one function. -/
def Code.IsFunction (code : Code) : Prop :=
  ∃ i inner, code = i :: inner ∧ i.isFunction ∧ Code.Inner inner

theorem Code.functions_append {inner : Code} (h : inner.Inner) (rest : Code) :
    Code.functions (inner ++ rest) = Code.functions rest := by
  induction inner with
  | nil => rfl
  | cons i inner ih =>
    obtain ⟨hi, h⟩ := Code.inner_cons.1 h
    rw [List.cons_append, Code.functions, if_neg (by simp [hi]), ih h]

/-- Functions that are put together can be told apart again. -/
theorem Code.functions_flatten {codes : List Code} (h : ∀ code ∈ codes, code.IsFunction) :
    Code.functions codes.flatten = codes := by
  induction codes with
  | nil => rfl
  | cons code codes ih =>
    obtain ⟨hcode, hcodes⟩ := List.forall_mem_cons.1 h
    obtain ⟨i, inner, rfl, hi, hinner⟩ := hcode
    -- what follows the function is empty or begins with the next one
    have hstop : codes.flatten.takeWhile (fun j => !j.isFunction) = [] := by
      cases codes with
      | nil => rfl
      | cons code codes =>
        obtain ⟨j, others, rfl, hj, -⟩ := hcodes code (by simp)
        simp [hj]
    have htake : (inner ++ codes.flatten).takeWhile (fun j => !j.isFunction) = inner := by
      rw [List.takeWhile_append_of_pos fun j hj => by simp [hinner j hj], hstop, List.append_nil]
    rw [List.flatten_cons, List.cons_append, Code.functions, if_pos hi, htake,
      Code.functions_append hinner, ih hcodes]

theorem Emit.isFunction_subroutine {c : Class} {sub : Subroutine} {body : Code} {l l' : Labels}
    (he : subroutine c.name (classSymbols c) sub l = .ok body l') : body.IsFunction := by
  obtain ⟨inner, hi, rfl⟩ := subroutine_eq_ok.1 he
  have hprologue : Code.Inner (prologue (Meaning.context c sub).symbols sub.kind) := by
    cases sub.kind <;> simp [prologue, Instruction.isFunction]
  exact ⟨_, _, rfl, rfl, Code.inner_append.2 ⟨hprologue, inner_statements sub.body hi⟩⟩

/-- What holds of everything that is related to a member of a list holds of a list that is related
to it. -/
theorem forall_mem_of_forall₂ {α β : Type} {R : α → β → Prop} {P : β → Prop} {xs : List α}
    {ys : List β} (hP : ∀ a ∈ xs, ∀ b, R a b → P b) (h : List.Forall₂ R xs ys) :
    ∀ b ∈ ys, P b := by
  induction h with
  | nil => simp
  | cons hab _ ih =>
    obtain ⟨hfirst, hothers⟩ := List.forall_mem_cons.1 hP
    exact List.forall_mem_cons.2 ⟨hfirst _ hab, ih hothers⟩

/-- The code of a class is put together from its functions, each emitted for a subroutine. -/
theorem Class.emit_eq_ok {c : Class} {code : Code} {l l' : Labels} (he : c.emit l = .ok code l') :
    code.functions.flatten = code ∧
      c.subroutines.mapM (Emit.subroutine c.name (Emit.classSymbols c)) l
        = .ok code.functions l' := by
  obtain ⟨codes, l₁, hm, hr⟩ := Fallible.run_bind_eq_ok.1 he
  obtain ⟨rfl, rfl⟩ := Fallible.run_pure_eq_ok.1 hr
  have hfunctions : ∀ body ∈ codes, Code.IsFunction body := by
    refine forall_mem_of_forall₂ ?_ (Emit.forall₂_of_mapM_eq_ok c.subroutines hm)
    rintro sub - body ⟨l₁, l₂, hs⟩
    exact Emit.isFunction_subroutine hs
  rw [Code.functions_flatten hfunctions]
  exact ⟨rfl, hm⟩

/-- **A class has a function for each subroutine.** -/
theorem Class.forall₂_functions {c : Class} {code : Code} {l l' : Labels}
    (he : c.emit l = .ok code l') :
    List.Forall₂ (fun sub body => ∃ l₁ l₂,
      Emit.subroutine c.name (Emit.classSymbols c) sub l₁ = .ok body l₂) c.subroutines
      code.functions :=
  Emit.forall₂_of_mapM_eq_ok c.subroutines (Class.emit_eq_ok he).2

/-! ## Running a subroutine -/

namespace Machine

variable {calls : Callees} {c : Class} {sub : Subroutine} {body : Code} {m : Machine} {v : Word}
  {g : Globals}

/-- A function makes the memory in which the statements of the subroutine begin. -/
theorem reaches_enter {name : String} {inner : Code}
    (hr : m.rest = .function name (UInt16.ofNat sub.localNames.length)
      :: (Emit.prologue (Meaning.context c sub).symbols sub.kind ++ inner))
    (hs : m.stack = []) :
    ∃ m', Reaches calls body m m' ∧
      Stands m' inner (Meaning.enter calls c sub ⟨m.frame, m.globals⟩) := by
  obtain ⟨rest, stack, frame, that, temps, globals⟩ := m
  obtain rfl : rest = _ := hr
  obtain rfl : stack = _ := hs
  have hfields : (Meaning.context c sub).symbols.count .field = c.fieldNames.length :=
    Emit.count_fields
  unfold Meaning.enter
  cases hk : sub.kind with
  | constructor =>
    rw [Emit.prologue, hfields]
    exact ⟨_, .trans (.of_step rfl) (.trans (.of_step rfl) (.trans (.of_step rfl) (.of_step rfl))),
      rfl, rfl, rfl, rfl⟩
  | function => exact ⟨_, .of_step rfl, rfl, rfl, rfl, rfl⟩
  | method =>
    exact ⟨_, .trans (.of_step rfl) (.trans (.of_step rfl) (.of_step rfl)), rfl, rfl, rfl, rfl⟩

/-- A machine does not return behind the end of its function. -/
theorem not_returnsIn_nil {n : Nat} (hr : m.rest = []) : ¬ ReturnsIn calls body n m v g := by
  rintro ⟨m', hn, hres⟩
  cases n with
  | zero =>
    obtain rfl : m = m' := Option.some.inj hn
    simp [result?, hr] at hres
  | succ n => simp [run, step, hr] at hn

theorem Returns.iff_of_reaches {m' : Machine} (h : Reaches calls body m m') :
    Returns calls body m v g ↔ Returns calls body m' v g := by
  refine ⟨?_, Returns.of_reaches h⟩
  rintro ⟨n, hn⟩
  obtain ⟨k, hk⟩ := h
  exact ⟨n - k, (hn.of_run hk).2⟩

/-- From the first statement on, the function returns what the statements return. -/
theorem returns_iff_runsAll {ctx : Emit.Context} {block : List Statement} {before inner : Code}
    {l l' : Labels} {mem : Memory} (he : Emit.statements ctx block l = .ok inner l')
    (hfit : Calls.Fit (Calls.statements block)) (hbefore : Code.labels before = [])
    (hbody : body = before ++ inner) (hm : Stands m inner mem) :
    Returns calls body m v g ↔ Meaning.RunsAll ctx calls block mem (.returned v g) := by
  have hnd : (Code.labels body).Nodup := by
    rw [hbody, Code.labels_append, hbefore]
    exact (Emit.fresh_statements block he).nodup
  rw [← List.append_nil inner] at hbody hm
  constructor
  · -- statements that come to their end lead behind the code, where nothing is returned
    rintro ⟨n, hn⟩
    rcases (ends_of_returnsIn hnd n).2 he hfit hbody hm hn with
      ⟨mem', m', k, -, -, hm', hk⟩ | hret
    · exact absurd hk (not_returnsIn_nil hm'.rest_eq)
    · exact hret
  · intro h
    exact shows_block h hnd he hfit hbody hm

end Machine

/-- The code does what the subroutine means: it is a function with the name and the local variables
of the subroutine, and wherever it begins with an empty stack, it returns what the subroutine
returns, and only that. -/
def Implements (c : Class) (sub : Subroutine) (body : Code) : Prop :=
  (∃ inner, body = .function (c.name ++ "." ++ sub.name)
      (UInt16.ofNat sub.localNames.length) :: inner) ∧
    ∀ (calls : Callees) (m : Machine) (v : Word) (g : Globals), m.rest = body → m.stack = [] →
      (m.Returns calls body v g ↔ Meaning.Returns calls c sub ⟨m.frame, m.globals⟩ v g)

/-- **Emitted code preserves the meaning of every subroutine.** -/
theorem Class.emit_implements {c : Class} {code : Code} {labels labels' : Labels}
    (he : c.emit labels = .ok code labels') (hfit : Calls.Fit (Calls.ofClass c)) :
    List.Forall₂ (Implements c) c.subroutines code.functions := by
  have hfits : ∀ sub ∈ c.subroutines, Calls.Fit (Calls.statements sub.body) := fun sub hsub c hc =>
    hfit c (List.mem_flatMap.2 ⟨sub, hsub, hc⟩)
  have hall := (List.forall₂_and_left _ _).2 ⟨hfits, Class.forall₂_functions he⟩
  refine hall.imp ?_
  rintro sub body ⟨hfit, l, l', hs⟩
  obtain ⟨inner, hi, hbody⟩ := Emit.subroutine_eq_ok.1 hs
  refine ⟨⟨_, hbody⟩, ?_⟩
  intro calls m v g hr hstack
  obtain ⟨m', hreach, hm'⟩ := Machine.reaches_enter (hr.trans hbody) hstack
  rw [Machine.Returns.iff_of_reaches hreach]
  rw [← List.cons_append] at hbody
  -- what comes before the statements marks no labels
  refine Machine.returns_iff_runsAll hi hfit ?_ hbody hm'
  cases sub.kind <;> simp [Emit.prologue, Instruction.label?]

/-- A class whose constructor fills an array in a loop with a branch. -/
def tableClass : Class where
  name := "Table"
  vars := [(.field, ⟨.int, ["size"]⟩), (.field, ⟨.object "Array", ["entries"]⟩)]
  subroutines := [{
    kind := .constructor
    result := some (.object "Table")
    name := "new"
    parameters := [⟨.int, "n"⟩]
    locals := [⟨.int, ["i"]⟩]
    body := [
      .assign "size" none (.mk (.var "n") []),
      .assign "entries" none (.mk (.call (.mk (some "Array") "new" [.mk (.var "n") []])) []),
      .loop (.mk (.var "i") [(.lt, .var "size")]) [
        .branch (.mk (.var "i") [(.gt, .integer 2)])
          [.assign "entries" (some (.mk (.var "i") [])) (.mk (.var "i") [(.mul, .var "n")])] none,
        .assign "i" none (.mk (.var "i") [(.add, .integer 1)])],
      .leave (some (.mk (.constant .this) []))] }]

theorem tableClass_implemented :
    ∃ code labels', tableClass.emit {} = .ok code labels' ∧ Calls.Fit (Calls.ofClass tableClass) ∧
      List.Forall₂ (Implements tableClass) tableClass.subroutines code.functions :=
  ⟨_, _, rfl, by decide, Class.emit_implements rfl (by decide)⟩

end JackCompiler
