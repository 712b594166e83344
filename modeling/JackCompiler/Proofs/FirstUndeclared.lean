import JackCompiler.Proofs.RunLabels
import JackCompiler.Proofs.Terms
/-!
# The first undeclared variable

A class has no code when one of its statements names a variable that is not declared where the
statement stands, and then the first such name of the text is reported. A name is looked up when the
emission comes to it, so what is to be shown is that it comes to the names in the order of the text.
The fault of two steps is that of the first, or else that of the second (`Reports`).
-/

namespace JackCompiler

/-! ## Faults of steps -/

/-- The result is the fault, if there is one; otherwise it is a value. -/
def Reports {ε α : Type} (fault : Option ε) (r : Except ε α) : Prop :=
  match fault with
  | some e => r = .error e
  | none => ∃ a, r = .ok a

namespace Reports

variable {ε α β : Type} {p q : Option ε} {r : Except ε α}

theorem pure (a : α) : Reports none (Pure.pure a : Except ε α) :=
  ⟨a, rfl⟩

/-- **The fault of two steps** is that of the first, or else that of the second. -/
theorem bind {f : α → Except ε β} (hr : Reports p r) (hf : ∀ a, Reports q (f a)) :
    Reports (p.or q) (r >>= f) := by
  cases p with
  | some e =>
    obtain rfl : r = .error e := hr
    rfl
  | none =>
    obtain ⟨a, rfl⟩ := hr
    exact hf a

/-- A last step that cannot fail makes no difference. -/
theorem bind_pure {f : α → β} (hr : Reports p r) : Reports p (r >>= fun a => Pure.pure (f a)) := by
  have h := hr.bind fun a => Reports.pure (f a)
  rwa [Option.or_none] at h

/-- The error of a result is the fault. -/
theorem eq_error_iff {e : ε} (h : Reports p r) : r = .error e ↔ p = some e := by
  cases p with
  | some e' =>
    obtain rfl : r = .error e' := h
    simp
  | none =>
    obtain ⟨a, rfl⟩ := h
    simp

/-- A result is a value exactly if there is no fault. -/
theorem exists_eq_ok_iff (h : Reports p r) : (∃ a, r = .ok a) ↔ p = none := by
  cases p with
  | some e =>
    obtain rfl : r = .error e := h
    simp
  | none =>
    obtain ⟨a, rfl⟩ := h
    simp

end Reports

/-- An emission has the fault from every counter. -/
def EmissionReports {ε α : Type} (fault : Option ε) (x : EStateM ε Labels α) : Prop :=
  ∀ l, Reports fault (Labels.outcome (x l))

namespace EmissionReports

variable {ε α β : Type} {p q : Option ε} {x : EStateM ε Labels α}

theorem pure (a : α) : EmissionReports none (Pure.pure a : EStateM ε Labels α) :=
  fun _ => ⟨a, rfl⟩

/-- A step without labels has the same fault as an emission. -/
theorem ofExcept {r : Except ε α} (hr : Reports p r) :
    EmissionReports p (MonadExcept.ofExcept r : EStateM ε Labels α) := by
  intro l
  cases r <;> exact hr

/-- Labels can always be taken. -/
theorem freshPair (stem first second : String) :
    EmissionReports none (Emit.freshPair stem first second) :=
  fun _ => ⟨_, rfl⟩

/-- The fault of two emissions is that of the first, or else that of the second. -/
theorem bind {f : α → EStateM ε Labels β} (hx : EmissionReports p x)
    (hf : ∀ a, EmissionReports q (f a)) : EmissionReports (p.or q) (x >>= f) := by
  intro l
  have hl := hx l
  change Reports (p.or q) (Labels.outcome (EStateM.bind x f l))
  unfold EStateM.bind
  cases hr : x l with
  | ok a l₁ =>
    rw [hr] at hl
    -- a first step that succeeds has no fault
    obtain rfl : p = none := hl.exists_eq_ok_iff.1 ⟨a, rfl⟩
    exact hf a l₁
  | error e l₁ =>
    rw [hr] at hl
    obtain rfl : p = some e := hl.eq_error_iff.1 rfl
    rfl

/-- A last step that cannot fail makes no difference to an emission. -/
theorem bind_pure {f : α → β} (hx : EmissionReports p x) :
    EmissionReports p (x >>= fun a => Pure.pure (f a)) := by
  have h := hx.bind fun a => EmissionReports.pure (f a)
  rwa [Option.or_none] at h

/-- **The fault of many steps** is that of the first step that has one. -/
theorem mapM {f : α → EStateM ε Labels β} {fault : α → Option ε}
    (hf : ∀ a, EmissionReports (fault a) (f a)) (xs : List α) :
    EmissionReports (xs.findSome? fault) (xs.mapM f) := by
  induction xs with
  | nil => exact .pure []
  | cons a xs ih =>
    have hcons : (a :: xs).findSome? fault = (fault a).or (xs.findSome? fault) := by
      rw [List.findSome?_cons]
      cases fault a <;> rfl
    rw [List.mapM_cons, hcons]
    exact .bind (hf a) fun b => .bind_pure ih

end EmissionReports

/-- The outcome is a value if there is one, whatever the labels are. -/
theorem Labels.outcome_eq_ok {ε α : Type} {r : EStateM.Result ε Labels α} {a : α} :
    outcome r = .ok a ↔ ∃ l, r = .ok a l := by
  cases r <;> simp [outcome]

/-- The outcome is an error if there is one, whatever the labels are. -/
theorem Labels.outcome_eq_error {ε α : Type} {r : EStateM.Result ε Labels α} {e : ε} :
    outcome r = .error e ↔ ∃ l, r = .error e l := by
  cases r <;> simp [outcome]

/-! ## Names in order -/

namespace Emit

/-- The error for the first of the names that stands for no variable. -/
def Context.fault (ctx : Context) (names : List String) : Option UndeclaredVariable :=
  (names.find? fun name => (ctx.symbols.resolve name).isNone).map .mk

variable {ctx : Context}

/-- The first fault is in the first part, or else in the second. -/
theorem Context.fault_append (a b : List String) :
    ctx.fault (a ++ b) = (ctx.fault a).or (ctx.fault b) := by
  simp only [fault, List.find?_append, Option.map_or]

theorem Context.fault_cons (name : String) (names : List String) :
    ctx.fault (name :: names) = (ctx.fault [name]).or (ctx.fault names) :=
  ctx.fault_append [name] names

/-- A name is looked up, and is the fault if it is not declared. -/
theorem reports_lookup (name : String) : Reports (ctx.fault [name]) (ctx.lookup name) := by
  unfold Context.lookup Context.fault
  cases h : ctx.symbols.resolve name with
  | some s =>
    rw [List.find?_cons_of_neg (by simp [h])]
    exact .pure s
  | none =>
    rw [List.find?_cons_of_pos (by simp [h])]
    rfl

mutual

/-- **The names in an expression are looked up in the order of the text.** -/
theorem reports_expr (e : Expr) :
    Reports (ctx.fault (Uses.terms (Terms.expr e))) (expr ctx e) := by
  obtain ⟨head, tail⟩ := e
  rw [Terms.expr, Uses.terms_append, Context.fault_append, expr]
  exact .bind (reports_term head) fun first => .bind_pure (reports_operands tail)

/-- The names in operands are looked up in the order of the text. -/
theorem reports_operands (tail : List (BinaryOp × Term)) :
    Reports (ctx.fault (Uses.terms (Terms.operands tail))) (operands ctx tail) := by
  match tail with
  | [] =>
    rw [operands]
    exact .pure []
  | (op, t) :: tail =>
    rw [Terms.operands, Uses.terms_append, Context.fault_append, operands]
    exact .bind (reports_term t) fun first => .bind_pure (reports_operands tail)

/-- The names in a term are looked up in the order of the text. -/
theorem reports_term (t : Term) :
    Reports (ctx.fault (Uses.terms (Terms.term t))) (term ctx t) := by
  match t with
  | .integer n =>
    rw [term]
    exact .pure _
  | .string s =>
    rw [term]
    exact .pure _
  | .constant c =>
    rw [term]
    exact .pure _
  | .paren e =>
    rw [term]
    exact reports_expr e
  | .unary op t =>
    rw [term]
    exact .bind_pure (reports_term t)
  | .var name =>
    rw [term]
    exact .bind_pure (reports_lookup name)
  | .index name e =>
    have hnames : Uses.terms (Terms.term (.index name e)) = name :: Uses.terms (Terms.expr e) := rfl
    rw [hnames, Context.fault_cons, term]
    exact .bind (reports_lookup name) fun s => .bind_pure (reports_expr e)
  | .call c =>
    rw [term]
    exact reports_call c

/-- The receiver and the name of a call are not looked up as variables that must exist. -/
theorem reports_call (c : Call) :
    Reports (ctx.fault (Uses.terms (Terms.call c))) (call ctx c) := by
  obtain ⟨receiver, name, args⟩ := c
  rw [Terms.call, call]
  exact .bind_pure (reports_arguments args)

/-- The names in arguments are looked up in the order of the text. -/
theorem reports_arguments (es : List Expr) :
    Reports (ctx.fault (Uses.terms (Terms.arguments es))) (arguments ctx es) := by
  match es with
  | [] =>
    rw [arguments]
    exact .pure []
  | e :: es =>
    rw [Terms.arguments, Uses.terms_append, Context.fault_append, arguments]
    exact .bind (reports_expr e) fun first => .bind_pure (reports_arguments es)

end

/-- The target of an assignment is looked up before its index and its value. -/
theorem reports_assign (name : String) (index : Option Expr) (value : Expr) :
    Reports (ctx.fault (Uses.statement (.assign name index value)))
      (assign ctx name index value) := by
  rw [Uses.statement, Context.fault_cons, assign]
  refine .bind (reports_lookup name) fun s => ?_
  cases index with
  | none => exact .bind_pure (reports_expr value)
  | some index =>
    rw [Context.fault_append]
    exact .bind (reports_expr index) fun offset => .bind_pure (reports_expr value)

/-- The names in the value of a `return` are looked up in the order of the text. -/
theorem reports_leave (value : Option Expr) :
    Reports (ctx.fault (Uses.statement (.leave value))) (leave ctx value) := by
  unfold leave
  cases value with
  | none => exact .pure _
  | some e => exact .bind_pure (reports_expr e)

mutual

/-- **The names in a statement are looked up in the order of the text.** -/
theorem reports_statement (s : Statement) :
    EmissionReports (ctx.fault (Uses.statement s)) (statement ctx s) := by
  match s with
  | .assign name index value =>
    rw [statement]
    exact .ofExcept (reports_assign name index value)
  | .branch condition yes no =>
    have hnames : Uses.statement (.branch condition yes no) = Uses.terms (Terms.expr condition)
        ++ (Uses.statements yes ++ Uses.statements (no.getD [])) := by
      cases no <;> rfl
    rw [hnames, Context.fault_append, Context.fault_append, statement]
    -- the labels are taken first, and that cannot fail
    refine .bind (p := none) (.freshPair "IF" "FALSE" "END") fun names => ?_
    refine .bind (.ofExcept (reports_expr condition)) fun test => ?_
    refine .bind (reports_statements yes) fun first => ?_
    match no with
    | some block => exact .bind_pure (reports_statements block)
    | none => exact .bind_pure (.pure [])
  | .loop condition body =>
    rw [Uses.statement, Context.fault_append, statement]
    refine .bind (p := none) (.freshPair "WHILE" "EXP" "END") fun names => ?_
    exact .bind (.ofExcept (reports_expr condition)) fun test =>
      .bind_pure (reports_statements body)
  | .perform c =>
    rw [statement]
    exact .bind_pure (.ofExcept (reports_call c))
  | .leave value =>
    rw [statement]
    exact .ofExcept (reports_leave value)

/-- The names in a block are looked up in the order of the text. -/
theorem reports_statements (block : List Statement) :
    EmissionReports (ctx.fault (Uses.statements block)) (statements ctx block) := by
  match block with
  | [] =>
    rw [statements]
    exact .pure []
  | s :: block =>
    rw [Uses.statements, Context.fault_append, statements]
    exact .bind (reports_statement s) fun first => .bind_pure (reports_statements block)

end

/-- The names in a subroutine are looked up in the order of the text. -/
theorem reports_subroutine (c : Class) (sub : Subroutine) :
    EmissionReports ((Meaning.context c sub).fault (Uses.statements sub.body))
      (subroutine c.name (classSymbols c) sub) :=
  .bind_pure (reports_statements sub.body)

end Emit

/-! ## Declared names -/

/-- The name is that of a variable in a subroutine of a class: of one that the class declares, of a
parameter or of a local variable. In a method, `this` is one of the arguments. -/
def Subroutine.Knows (c : Class) (sub : Subroutine) (name : String) : Prop :=
  name ∈ c.vars.flatMap (·.2.names) ∨ name ∈ sub.parameters.map (·.name) ∨
    name ∈ sub.localNames ∨ sub.kind = .method ∧ name = "this"

instance (c : Class) (sub : Subroutine) (name : String) : Decidable (sub.Knows c name) :=
  inferInstanceAs (Decidable (_ ∨ _))

namespace SymbolTable

/-- The names of the variables of a table. -/
def names (t : SymbolTable) : List String :=
  (t.subroutineScope ++ t.classScope).map Symbol.name

variable {t : SymbolTable} {name : String}

/-- A name is not found exactly if it is not among the known ones. -/
theorem resolve_eq_none_iff : t.resolve name = none ↔ name ∉ t.names := by
  simp only [resolve, Option.or_eq_none_iff, List.find?_eq_none, names, List.mem_map,
    List.mem_append, beq_iff_eq]
  grind

/-- Declaring a variable adds its name to the known ones. -/
theorem mem_names_define {n type : String} {kind : SymbolKind} :
    name ∈ (t.define n type kind).names ↔ name = n ∨ name ∈ t.names := by
  cases kind <;> simp [names, define] <;> grind

/-- A table knows what it knew before, and what each step adds. -/
theorem mem_names_foldl {α : Type} {f : SymbolTable → α → SymbolTable} (added : α → List String)
    (hf : ∀ t a, name ∈ (f t a).names ↔ name ∈ added a ∨ name ∈ t.names) (xs : List α) :
    name ∈ (xs.foldl f t).names ↔ name ∈ xs.flatMap added ∨ name ∈ t.names := by
  induction xs generalizing t with
  | nil => simp
  | cons a xs ih => rw [List.foldl_cons, ih, hf, List.flatMap_cons, List.mem_append, or_left_comm,
      or_assoc]

end SymbolTable

namespace Emit

open SymbolTable

variable {name : String}

/-- A declaration adds its names to the known ones. -/
theorem mem_names_declare (kind : SymbolKind) (t : SymbolTable) (d : VarDec) :
    name ∈ (declare kind t d).names ↔ name ∈ d.names ∨ name ∈ t.names := by
  unfold declare
  rw [mem_names_foldl (fun n => [n]) fun t n => by rw [mem_names_define, List.mem_singleton]]
  simp

/-- The variables of a class are no arguments or local variables. -/
theorem subroutineScope_classSymbols (c : Class) : (classSymbols c).subroutineScope = [] := by
  have hdefine : ∀ (t : SymbolTable) (kind : ClassVarKind) (n type : String),
      (t.define n type (classVarKind kind)).subroutineScope = t.subroutineScope := by
    intro t kind n type
    cases kind <;> rfl
  have hdeclare : ∀ (t : SymbolTable) (kind : ClassVarKind) (d : VarDec),
      (declare (classVarKind kind) t d).subroutineScope = t.subroutineScope := fun t kind d =>
    List.foldlRecOn (motive := fun t' => t'.subroutineScope = t.subroutineScope) d.names _ rfl
      fun t' ht n _ => (hdefine t' kind n d.type.name).trans ht
  have hempty : ({} : SymbolTable).subroutineScope = [] := rfl
  exact List.foldlRecOn (motive := fun t => t.subroutineScope = []) c.vars _ hempty
    fun t ht v _ => (hdeclare t v.1 v.2).trans ht

/-- At the beginning of a subroutine the variables of its class are known, and no others. -/
theorem mem_names_classSymbols {c : Class} :
    name ∈ (classSymbols c).startSubroutine.names ↔ name ∈ c.vars.flatMap (·.2.names) := by
  have hstart : (classSymbols c).startSubroutine.names = (classSymbols c).names := by
    simp [names, startSubroutine, subroutineScope_classSymbols]
  rw [hstart]
  unfold classSymbols
  rw [mem_names_foldl (fun v => v.2.names) fun t v => mem_names_declare _ t v.2]
  simp [names]

/-- **A subroutine can use the variables that are declared for it.** -/
theorem mem_names_context {c : Class} {sub : Subroutine} :
    name ∈ (Meaning.context c sub).symbols.names ↔ sub.Knows c name := by
  change name ∈ (subroutineSymbols c.name (classSymbols c) sub).names ↔ _
  have hobject : name ∈ (if sub.kind = .method
      then (classSymbols c).startSubroutine.define "this" c.name .argument
      else (classSymbols c).startSubroutine).names ↔
      sub.kind = .method ∧ name = "this" ∨ name ∈ c.vars.flatMap (·.2.names) := by
    split
    · next hk => rw [mem_names_define, mem_names_classSymbols, and_iff_right hk]
    · next hk => rw [mem_names_classSymbols, or_iff_right fun h => hk h.1]
  unfold subroutineSymbols
  rw [mem_names_foldl (·.names) fun t d => mem_names_declare .local t d,
    mem_names_foldl (fun p : Parameter => [p.name]) fun t p => by
      rw [mem_names_define, List.mem_singleton], hobject]
  unfold Subroutine.Knows Subroutine.localNames
  rw [← List.map_eq_flatMap]
  grind

end Emit

/-! ## Classes -/

/-- The variables that the statements of a class name, in the order of the text, each with the
subroutine in which it is named. -/
def Class.uses (c : Class) : List (Subroutine × String) :=
  c.subroutines.flatMap fun sub => (Uses.statements sub.body).map (sub, ·)

/-- The error for the first name that is not declared where it is used. -/
def Class.fault (c : Class) : Option UndeclaredVariable :=
  (c.uses.find? fun u => ¬ u.1.Knows c u.2).map fun u => ⟨u.2⟩

/-- In a subroutine, the first name that stands for no variable is the first that is not known. -/
theorem Emit.fault_context (c : Class) (sub : Subroutine) (names : List String) :
    (Meaning.context c sub).fault names
      = ((names.map (sub, ·)).find? fun u => ¬ u.1.Knows c u.2).map fun u => ⟨u.2⟩ := by
  have hknown : (fun name => ((Meaning.context c sub).symbols.resolve name).isNone)
      = fun name => decide (¬ sub.Knows c name) := by
    funext name
    rw [Bool.eq_iff_iff, Option.isNone_iff_eq_none, SymbolTable.resolve_eq_none_iff,
      mem_names_context, decide_eq_true_iff]
  rw [Context.fault, hknown, List.find?_map, Option.map_map]
  rfl

/-- **A class reports its fault.** -/
theorem Class.reports_emit (c : Class) : EmissionReports c.fault c.emit := by
  have hmap := EmissionReports.mapM (Emit.reports_subroutine c) c.subroutines
  simp only [Emit.fault_context] at hmap
  rw [fault, uses, List.find?_flatMap, List.map_findSome?]
  exact .bind_pure hmap

/-- The error of a class is the first name that is used where it is not known. -/
theorem Class.emit_eq_error_iff (c : Class) (labels : Labels) (x : String) :
    (∃ labels', c.emit labels = .error ⟨x⟩ labels') ↔
      ∃ before sub after, c.uses = before ++ (sub, x) :: after ∧ ¬ sub.Knows c x ∧
        ∀ u ∈ before, u.1.Knows c u.2 := by
  rw [← Labels.outcome_eq_error, (c.reports_emit labels).eq_error_iff, fault,
    Option.map_eq_some_iff]
  simp only [List.find?_eq_some_iff_append, UndeclaredVariable.mk.injEq, decide_eq_true_eq,
    Bool.not_eq_true', decide_eq_false_iff_not, not_not]
  constructor
  · rintro ⟨⟨sub, _⟩, ⟨hx, before, after, huses, hbefore⟩, rfl⟩
    exact ⟨before, sub, after, huses, hx, hbefore⟩
  · rintro ⟨before, sub, after, huses, hx, hbefore⟩
    exact ⟨(sub, x), ⟨hx, before, after, huses, hbefore⟩, rfl⟩

/-- A class has code exactly if every name is known where it is used. -/
theorem Class.exists_emit_eq_ok_iff (c : Class) (labels : Labels) :
    (∃ code labels', c.emit labels = .ok code labels') ↔ ∀ u ∈ c.uses, u.1.Knows c u.2 := by
  simp only [← Labels.outcome_eq_ok]
  rw [(c.reports_emit labels).exists_eq_ok_iff, fault, Option.map_eq_none_iff, List.find?_eq_none]
  simp only [decide_eq_true_eq, not_not]

/-! ## Calls that go elsewhere -/

namespace Redirect

variable (f : Option String → String → Option String × String)

mutual

/-- The expression with other receivers and names in its calls. -/
def expr : Expr → Expr
  | .mk head tail => .mk (term head) (operands tail)

/-- The operands with other receivers and names in their calls. -/
def operands : List (BinaryOp × Term) → List (BinaryOp × Term)
  | [] => []
  | (op, t) :: tail => (op, term t) :: operands tail

/-- The term with other receivers and names in its calls. -/
def term : Term → Term
  | .paren e => .paren (expr e)
  | .unary op t => .unary op (term t)
  | .index name e => .index name (expr e)
  | .call c => .call (call c)
  | t => t

/-- The call with another receiver and name, and so the calls in its arguments. -/
def call : Call → Call
  | .mk receiver name args => .mk (f receiver name).1 (f receiver name).2 (arguments args)

/-- The arguments with other receivers and names in their calls. -/
def arguments : List Expr → List Expr
  | [] => []
  | e :: es => expr e :: arguments es

end

mutual

/-- The statement with other receivers and names in its calls. -/
def statement : Statement → Statement
  | .assign name index value => .assign name (index.map (expr f)) (expr f value)
  | .branch condition yes no =>
    .branch (expr f condition) (statements yes) (match no with
      | some block => some (statements block)
      | none => none)
  | .loop condition body => .loop (expr f condition) (statements body)
  | .perform c => .perform (call f c)
  | .leave value => .leave (value.map (expr f))

/-- The block with other receivers and names in its calls. -/
def statements : List Statement → List Statement
  | [] => []
  | s :: rest => statement s :: statements rest

end

/-- The subroutine with other receivers and names in its calls. -/
def subroutine (sub : Subroutine) : Subroutine :=
  { sub with body := statements f sub.body }

mutual

/-- Calls that go elsewhere name the same variables in an expression. -/
theorem uses_expr (e : Expr) :
    Uses.terms (Terms.expr (expr f e)) = Uses.terms (Terms.expr e) := by
  obtain ⟨head, tail⟩ := e
  simp only [expr, Terms.expr, Uses.terms_append, uses_term head, uses_operands tail]

/-- They do so in operands. -/
theorem uses_operands (tail : List (BinaryOp × Term)) :
    Uses.terms (Terms.operands (operands f tail)) = Uses.terms (Terms.operands tail) := by
  match tail with
  | [] => rfl
  | (op, t) :: tail =>
    simp only [operands, Terms.operands, Uses.terms_append, uses_term t, uses_operands tail]

/-- They do so in a term. -/
theorem uses_term (t : Term) :
    Uses.terms (Terms.term (term f t)) = Uses.terms (Terms.term t) := by
  match t with
  | .integer _ | .string _ | .constant _ | .var _ => rfl
  | .paren e => exact uses_expr e
  | .unary op t => exact uses_term t
  | .index name e => exact congrArg (name :: ·) (uses_expr e)
  | .call c => exact uses_call c

/-- They do so in a call. -/
theorem uses_call (c : Call) :
    Uses.terms (Terms.call (call f c)) = Uses.terms (Terms.call c) := by
  obtain ⟨receiver, name, args⟩ := c
  exact uses_arguments args

/-- They do so in arguments. -/
theorem uses_arguments (es : List Expr) :
    Uses.terms (Terms.arguments (arguments f es)) = Uses.terms (Terms.arguments es) := by
  match es with
  | [] => rfl
  | e :: es =>
    simp only [arguments, Terms.arguments, Uses.terms_append, uses_expr e, uses_arguments es]

end

/-- They do so in an expression that may be missing. -/
theorem uses_optional (e : Option Expr) :
    Uses.terms (Terms.optional (e.map (expr f))) = Uses.terms (Terms.optional e) := by
  cases e with
  | none => rfl
  | some e => exact uses_expr f e

mutual

/-- They do so in a statement. -/
theorem uses_statement (s : Statement) : Uses.statement (statement f s) = Uses.statement s := by
  match s with
  | .assign name index value =>
    simp only [statement, Uses.statement, uses_optional, uses_expr]
  | .branch condition yes none =>
    simp only [statement, Uses.statement, uses_expr, uses_statements yes]
  | .branch condition yes (some block) =>
    simp only [statement, Uses.statement, uses_expr, uses_statements yes, uses_statements block]
  | .loop condition body =>
    simp only [statement, Uses.statement, uses_expr, uses_statements body]
  | .perform c => exact uses_call f c
  | .leave value => exact uses_optional f value

/-- They do so in a block. -/
theorem uses_statements (block : List Statement) :
    Uses.statements (statements f block) = Uses.statements block := by
  match block with
  | [] => rfl
  | s :: block =>
    simp only [statements, Uses.statements, uses_statement s, uses_statements block]

end

end Redirect

/-- The class with other receivers and names in its calls. -/
def Class.redirect (f : Option String → String → Option String × String) (c : Class) : Class :=
  { c with subroutines := c.subroutines.map (Redirect.subroutine f) }

/-- A class whose calls go elsewhere names the same variables. -/
theorem Class.uses_redirect (f : Option String → String → Option String × String) (c : Class) :
    (c.redirect f).uses = c.uses.map fun u => (Redirect.subroutine f u.1, u.2) := by
  simp only [uses, redirect, List.flatMap_map, List.map_flatMap, List.map_map]
  refine List.flatMap_congr fun sub _ => ?_
  rw [Redirect.subroutine, Redirect.uses_statements]
  rfl

/-- What stands in the place of a receiver or of a called name makes no fault. -/
theorem Class.fault_redirect (f : Option String → String → Option String × String) (c : Class) :
    (c.redirect f).fault = c.fault := by
  rw [fault, uses_redirect, List.find?_map, Option.map_map]
  rfl

/-- **Emission fails exactly at the first undeclared variable.** A class has an error when a target
of an assignment, a variable or the variable before an index has a name that its subroutine does not
know; the error is the first such name of the text. Otherwise the class has code: there is no other
error. Receivers and names of calls are never reported: whatever others take their place, the error
is the same. -/
theorem Class.emit_error_iff_first_undeclared (c : Class) (labels : Labels) :
    (∀ x, (∃ labels', c.emit labels = .error ⟨x⟩ labels') ↔
      ∃ before sub after, c.uses = before ++ (sub, x) :: after ∧ ¬ sub.Knows c x ∧
        ∀ u ∈ before, u.1.Knows c u.2) ∧
    ((∃ code labels', c.emit labels = .ok code labels') ↔ ∀ u ∈ c.uses, u.1.Knows c u.2) ∧
    ∀ f x, (∃ labels', (c.redirect f).emit labels = .error ⟨x⟩ labels') ↔
      ∃ labels', c.emit labels = .error ⟨x⟩ labels' := by
  refine ⟨c.emit_eq_error_iff labels, c.exists_emit_eq_ok_iff labels, ?_⟩
  intro f x
  rw [← Labels.outcome_eq_error, ← Labels.outcome_eq_error,
    ((c.redirect f).reports_emit labels).eq_error_iff, (c.reports_emit labels).eq_error_iff,
    c.fault_redirect f]

/-- Neither the class before the dot nor the object of the method is reported, but the array in the
argument, before its index and before the target of the next statement. -/
example :
    Class.fault
      { name := "Plot"
        vars := [(.field, ⟨.int, ["x"]⟩)]
        subroutines := [
          { kind := .method
            result := none
            name := "draw"
            parameters := []
            locals := []
            body := [
              .perform (.mk (some "Screen") "drawPixel"
                [.mk (.var "this") [(.add, .var "x")], .mk (.index "ys" (.mk (.var "i") [])) []]),
              .assign "last" none (.mk (.var "x") []), .leave none] }] }
      = some ⟨"ys"⟩ := by
  decide

end JackCompiler
