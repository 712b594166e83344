import JackCompiler.Proofs.Calls
import JackCompiler.Proofs.CodeText
import JackCompiler.Proofs.FirstUndeclared
import JackCompiler.Proofs.SourceClass
import JackCompiler.Proofs.StorageBounds
/-!
# How many arguments a call is made with

The calls in the code of a class are, one for one and in order, those that its source asks for
(`CallSite`): the calls that are written, and those to the library for products, quotients, strings
and the room of an object. The number in a call is a word. So it is the number of arguments, with
the object if there is one, exactly when that is below 65536; nothing in the source keeps it there.
Neither is the number of fields kept to what an integer constant may be.
-/

namespace JackCompiler

/-! ## Where calls are made -/

/-- A place in a source at which a call is made: one that is written, or one to the library. -/
inductive CallSite
  | written (call : Call)
  | library (name : String) (count : UInt16)

namespace CallSites

/-- The call that works an operator. -/
def operator : BinaryOp → List CallSite
  | .mul => [.library "Math.multiply" 2]
  | .div => [.library "Math.divide" 2]
  | _ => []

/-- The calls that make a string. -/
def string (s : String) : List CallSite :=
  .library "String.new" 1 :: s.toList.map fun _ => .library "String.appendChar" 2

mutual

/-- The calls made for an expression, in order. -/
def expr : Expr → List CallSite
  | .mk head tail => term head ++ operands tail

/-- The calls made for the operators of an expression, each after those for its right operand. -/
def operands : List (BinaryOp × Term) → List CallSite
  | [] => []
  | (op, t) :: tail => term t ++ (operator op ++ operands tail)

/-- The calls made for a term. -/
def term : Term → List CallSite
  | .string s => string s
  | .paren e => expr e
  | .unary _ t => term t
  | .index _ e => expr e
  | .call c => call c
  | _ => []

/-- The calls made for the arguments of a call, and then the call. -/
def call : Call → List CallSite
  | .mk receiver name args => arguments args ++ [.written (.mk receiver name args)]

/-- The calls made for the arguments of a call. -/
def arguments : List Expr → List CallSite
  | [] => []
  | e :: es => expr e ++ arguments es

end

/-- The calls made for an expression that may be missing. -/
def optional : Option Expr → List CallSite
  | some e => expr e
  | none => []

mutual

/-- The calls made for a statement. -/
def statement : Statement → List CallSite
  | .assign _ index value => optional index ++ expr value
  | .branch condition yes no =>
    let other := match no with
      | some block => statements block
      | none => []
    expr condition ++ (statements yes ++ other)
  | .loop condition body => expr condition ++ statements body
  | .perform c => call c
  | .leave value => optional value

/-- The calls made for a block. -/
def statements : List Statement → List CallSite
  | [] => []
  | s :: rest => statement s ++ statements rest

end

/-- A missing second block of a branch asks for no calls, like an empty one. -/
theorem statement_branch {condition : Expr} {yes : List Statement}
    {no : Option (List Statement)} :
    statement (.branch condition yes no)
      = expr condition ++ (statements yes ++ statements (no.getD [])) := by
  cases no <;> rfl

/-- The calls made for a subroutine. A constructor first asks for the room of its object. -/
def subroutine (sub : Subroutine) : List CallSite :=
  (if sub.kind = .constructor then [.library "Memory.alloc" 1] else []) ++ statements sub.body

end CallSites

/-! ## Written calls -/

/-- The call that is written at a place, if one is. -/
def CallSite.written? : CallSite → Option Call
  | written call => some call
  | library _ _ => none

namespace CallSites

/-- No written call works an operator. -/
theorem written_operator (op : BinaryOp) : (operator op).filterMap CallSite.written? = [] := by
  cases op <;> rfl

/-- No written call makes a string. -/
theorem written_string (s : String) : (string s).filterMap CallSite.written? = [] := by
  simp [string, CallSite.written?]

mutual

/-- **Of the calls made for an expression, those that are written are the calls in it.** -/
theorem written_expr (e : Expr) : (expr e).filterMap CallSite.written? = Calls.expr e := by
  obtain ⟨head, tail⟩ := e
  rw [expr, Calls.expr, List.filterMap_append, written_term head, written_operands tail]

/-- The written calls among those made for operands are the calls in them. -/
theorem written_operands (tail : List (BinaryOp × Term)) :
    (operands tail).filterMap CallSite.written? = Calls.operands tail := by
  match tail with
  | [] => rfl
  | (op, t) :: tail =>
    rw [operands, Calls.operands, List.filterMap_append, List.filterMap_append, written_term t,
      written_operator, written_operands tail, List.nil_append]

/-- The written calls among those made for a term are the calls in it. -/
theorem written_term (t : Term) : (term t).filterMap CallSite.written? = Calls.term t := by
  match t with
  | .integer _ | .constant _ | .var _ => rfl
  | .string s => exact written_string s
  | .paren e => exact written_expr e
  | .unary _ t => exact written_term t
  | .index _ e => exact written_expr e
  | .call c => exact written_call c

/-- The written calls among those made for a call are the calls in its arguments, and itself. -/
theorem written_call (c : Call) : (call c).filterMap CallSite.written? = Calls.call c := by
  obtain ⟨receiver, name, args⟩ := c
  rw [call, Calls.call, List.filterMap_append, written_arguments args]
  rfl

/-- The written calls among those made for arguments are the calls in them. -/
theorem written_arguments (args : List Expr) :
    (arguments args).filterMap CallSite.written? = Calls.arguments args := by
  match args with
  | [] => rfl
  | e :: es =>
    rw [arguments, Calls.arguments, List.filterMap_append, written_expr e, written_arguments es]

end

theorem written_optional (value : Option Expr) :
    (optional value).filterMap CallSite.written? = Calls.optional value := by
  cases value with
  | none => rfl
  | some e => exact written_expr e

mutual

/-- **The written calls among those made for a statement are the calls in it.** -/
theorem written_statement (s : Statement) :
    (statement s).filterMap CallSite.written? = Calls.statement s := by
  match s with
  | .assign _ index value =>
    rw [statement, Calls.statement, List.filterMap_append, written_optional, written_expr]
  | .branch condition yes none =>
    rw [statement_branch, Calls.statement_branch, List.filterMap_append, List.filterMap_append,
      written_expr, written_statements yes]
    rfl
  | .branch condition yes (some block) =>
    rw [statement_branch, Calls.statement_branch, List.filterMap_append, List.filterMap_append,
      written_expr, written_statements yes, Option.getD_some, written_statements block]
  | .loop condition body =>
    rw [statement, Calls.statement, List.filterMap_append, written_expr, written_statements body]
  | .perform c => exact written_call c
  | .leave value => exact written_optional value

/-- The written calls among those made for a block are the calls in it. -/
theorem written_statements (block : List Statement) :
    (statements block).filterMap CallSite.written? = Calls.statements block := by
  match block with
  | [] => rfl
  | s :: block =>
    rw [statements, Calls.statements, List.filterMap_append, written_statement s,
      written_statements block]

end

end CallSites

/-! ## Calls in code -/

/-- The subroutine that an instruction calls, with the number of its arguments. -/
def Instruction.call? : Instruction → Option (String × UInt16)
  | call callee count => some (callee, count)
  | _ => none

/-- The calls in a code, in order. -/
def Code.calls (code : Code) : List (String × UInt16) :=
  code.filterMap Instruction.call?

@[simp]
theorem Code.calls_nil : Code.calls [] = [] := rfl

/-- The calls of two codes are made one after the other. -/
@[simp]
theorem Code.calls_append (a b : Code) : Code.calls (a ++ b) = a.calls ++ b.calls :=
  List.filterMap_append

@[simp]
theorem Code.calls_cons (i : Instruction) (code : Code) :
    Code.calls (i :: code) = i.call?.toList ++ code.calls := by
  cases h : i.call? <;> simp [calls, h]

namespace Emit

/-- An object is put on the stack before the arguments: the current one, or the variable before the
dot. -/
def Context.pushesObject (ctx : Context) : Call → Bool
  | .mk none _ _ => true
  | .mk (some r) _ _ => (ctx.symbols.resolve r).isSome

/-- How many words a call finds on the stack: its arguments, and the object before them. -/
def Context.passed (ctx : Context) (call : Call) : Nat :=
  call.args.length + if ctx.pushesObject call then 1 else 0

/-- The subroutine that a call goes to. -/
def Context.callee (ctx : Context) : Call → String
  | .mk none name _ => ctx.className ++ "." ++ name
  | .mk (some r) name _ => ((ctx.symbols.resolve r).map Symbol.type).getD r ++ "." ++ name

end Emit

namespace CallSite

open Emit (Context)

/-- The subroutine that is called at a place. -/
def callee (ctx : Context) : CallSite → String
  | written call => ctx.callee call
  | library name _ => name

/-- How many words are passed at a place. -/
def count (ctx : Context) : CallSite → Nat
  | written call => ctx.passed call
  | library _ n => n.toNat

/-- The call in the code. Its number is a word. -/
def emitted (ctx : Context) (site : CallSite) : String × UInt16 :=
  (site.callee ctx, UInt16.ofNat (site.count ctx))

/-- The call in the code goes where the source says, with the number of words that are passed. -/
structure MadeBy (ctx : Context) (site : CallSite) (call : String × UInt16) : Prop where
  callee : call.1 = site.callee ctx
  count : call.2.toNat = site.count ctx

/-- A call is made with the right count exactly if the count is a word. -/
theorem madeBy_emitted_iff {ctx : Context} {site : CallSite} :
    site.MadeBy ctx (site.emitted ctx) ↔ site.count ctx < 65536 := by
  constructor
  · intro h
    rw [← h.count]
    exact UInt16.toNat_lt _
  · intro h
    exact ⟨rfl, UInt16.toNat_ofNat_of_lt' h⟩

end CallSite

namespace Emit

variable {ctx : Context} {code : Code}

/-- The instruction of an operator makes the call that works it. -/
theorem calls_binary (op : BinaryOp) :
    (binary op).call?.toList = (CallSites.operator op).map (CallSite.emitted ctx) := by
  cases op <;> rfl

/-- The code of a string makes the calls that build it. -/
theorem calls_string (s : String) :
    (string s).calls = (CallSites.string s).map (CallSite.emitted ctx) := by
  have hcharacters : ∀ cs : List Char, Code.calls (cs.flatMap fun c =>
      [.push .constant (UInt16.ofNat c.toNat), .call "String.appendChar" 2])
        = cs.map fun _ => ("String.appendChar", 2) := by
    intro cs
    induction cs with
    | nil => rfl
    | cons c cs ih => simp [Instruction.call?, ih]
  rw [string, Code.calls_append, hcharacters, CallSites.string, List.map_cons, List.map_map]
  rfl

/-- A call is made after its arguments, with their number and the object. -/
theorem calls_callWith (receiver : Option String) (name : String) (args : List Expr)
    (inner : Code) :
    (callWith ctx receiver name inner (UInt16.ofNat args.length)).calls
      = inner.calls ++ [CallSite.emitted ctx (.written (.mk receiver name args))] := by
  have hobject : UInt16.ofNat (args.length + 1) = UInt16.ofNat args.length + 1 :=
    UInt16.ofNat_add _ _
  cases receiver with
  | none =>
    simp [callWith, qualified, Instruction.call?, CallSite.emitted, CallSite.callee, CallSite.count,
      Context.callee, Context.passed, Context.pushesObject, Call.args, hobject]
  | some r =>
    cases hr : ctx.symbols.resolve r <;>
      simp [callWith, qualified, pushSymbol, Instruction.call?, CallSite.emitted,
        CallSite.callee, CallSite.count, Context.callee, Context.passed, Context.pushesObject,
        Call.args, hobject, hr]

mutual

/-- **The calls in the code of an expression are those that the expression asks for.** -/
theorem calls_expr (e : Expr) {code : Code} (he : expr ctx e = .ok code) :
    code.calls = (CallSites.expr e).map (CallSite.emitted ctx) := by
  obtain ⟨head, tail⟩ := e
  obtain ⟨first, hf, rest, hr, rfl⟩ := expr_eq_ok.1 he
  rw [Code.calls_append, calls_term head hf, calls_operands tail hr, ← List.map_append,
    CallSites.expr]

/-- The code of operands makes the calls asked for there. -/
theorem calls_operands (tail : List (BinaryOp × Term)) {code : Code}
    (he : operands ctx tail = .ok code) :
    code.calls = (CallSites.operands tail).map (CallSite.emitted ctx) := by
  match tail with
  | [] =>
    obtain rfl := operands_nil_eq_ok.1 he
    rfl
  | (op, t) :: tail =>
    obtain ⟨first, hf, rest, hr, rfl⟩ := operands_cons_eq_ok.1 he
    rw [Code.calls_append, Code.calls_cons, calls_term t hf, calls_binary, calls_operands tail hr,
      CallSites.operands, List.map_append, List.map_append]

/-- The code of a term makes the calls asked for there. -/
theorem calls_term (t : Term) {code : Code} (he : term ctx t = .ok code) :
    code.calls = (CallSites.term t).map (CallSite.emitted ctx) := by
  match t with
  | .integer n =>
    obtain rfl := term_integer_eq_ok.1 he
    rfl
  | .string s =>
    obtain rfl := term_string_eq_ok.1 he
    exact calls_string s
  | .constant c =>
    obtain rfl := term_constant_eq_ok.1 he
    cases c <;> rfl
  | .paren e => exact calls_expr e (term_paren_eq_ok.1 he)
  | .unary op t =>
    obtain ⟨inner, hi, rfl⟩ := term_unary_eq_ok.1 he
    have hinner := calls_term t hi
    cases op <;> simpa [unary, Instruction.call?, CallSites.term] using hinner
  | .var name =>
    obtain ⟨s, -, rfl⟩ := term_var_eq_ok.1 he
    rfl
  | .index name e =>
    obtain ⟨s, -, offset, ho, rfl⟩ := term_index_eq_ok.1 he
    have hoffset := calls_expr e ho
    simpa [pushSymbol, Instruction.call?, CallSites.term] using hoffset
  | .call c => exact calls_call c (term_call_eq_ok.1 he)

/-- The code of a call makes the calls of its arguments, and then the call. -/
theorem calls_call (c : Call) {code : Code} (he : call ctx c = .ok code) :
    code.calls = (CallSites.call c).map (CallSite.emitted ctx) := by
  obtain ⟨receiver, name, args⟩ := c
  obtain ⟨inner, hi, rfl⟩ := call_eq_ok.1 he
  rw [calls_callWith, calls_arguments args hi, CallSites.call, List.map_append]
  rfl

/-- The code of arguments makes the calls asked for there. -/
theorem calls_arguments (args : List Expr) {code : Code} (he : arguments ctx args = .ok code) :
    code.calls = (CallSites.arguments args).map (CallSite.emitted ctx) := by
  match args with
  | [] =>
    obtain rfl := arguments_nil_eq_ok.1 he
    rfl
  | e :: es =>
    obtain ⟨first, hf, rest, hr, rfl⟩ := arguments_cons_eq_ok.1 he
    rw [Code.calls_append, calls_expr e hf, calls_arguments es hr, CallSites.arguments,
      List.map_append]

end

/-- The code of an assignment makes the calls of its index and its value. -/
theorem calls_assign {name : String} {index : Option Expr} {value : Expr}
    (he : assign ctx name index value = .ok code) :
    code.calls
      = (CallSites.statement (.assign name index value)).map (CallSite.emitted ctx) := by
  cases index with
  | none =>
    obtain ⟨s, -, inner, hi, rfl⟩ := assign_none_eq_ok.1 he
    have hinner := calls_expr value hi
    simpa [popSymbol, Instruction.call?, CallSites.statement, CallSites.optional] using hinner
  | some index =>
    obtain ⟨s, -, offset, ho, inner, hi, rfl⟩ := assign_some_eq_ok.1 he
    have hoffset := calls_expr index ho
    have hinner := calls_expr value hi
    simp [pushSymbol, Instruction.call?, CallSites.statement, CallSites.optional, hoffset, hinner]

/-- The code of a `return` makes the calls of its value. -/
theorem calls_leave {value : Option Expr} (he : leave ctx value = .ok code) :
    code.calls = (CallSites.optional value).map (CallSite.emitted ctx) := by
  have htail : (leaveTail ctx).calls = [] := by
    unfold leaveTail
    split <;> rfl
  cases value with
  | none =>
    obtain rfl := leave_none_eq_ok.1 he
    exact htail
  | some e =>
    obtain ⟨inner, hi, rfl⟩ := leave_some_eq_ok.1 he
    rw [Code.calls_append, htail, List.append_nil]
    exact calls_expr e hi

mutual

/-- **The calls in the code of a statement are those that the statement asks for.** -/
theorem calls_statement (s : Statement) {code : Code} {l l' : Labels}
    (he : statement ctx s l = .ok code l') :
    code.calls = (CallSites.statement s).map (CallSite.emitted ctx) := by
  match s with
  | .assign name index value => exact calls_assign (statement_assign_eq_ok.1 he).1
  | .branch condition yes no =>
    obtain ⟨test, ht, first, l₁, hf, second, hs, rfl⟩ := statement_branch_eq_ok.1 he
    have hsecond : second.calls
        = (CallSites.statements (no.getD [])).map (CallSite.emitted ctx) := by
      match no, hs with
      | none, hs =>
        obtain ⟨rfl, -⟩ := statements_nil_eq_ok.1 hs
        rfl
      | some block, hs => exact calls_statements block hs
    have htest := calls_expr condition ht
    have hfirst := calls_statements yes hf
    rw [CallSites.statement_branch]
    simp [branchCode, Instruction.call?, htest, hfirst, hsecond]
  | .loop condition body =>
    obtain ⟨test, ht, inner, hi, rfl⟩ := statement_loop_eq_ok.1 he
    have htest := calls_expr condition ht
    have hinner := calls_statements body hi
    simp [loopCode, Instruction.call?, CallSites.statement, htest, hinner]
  | .perform c =>
    obtain ⟨⟨inner, hi, rfl⟩, -⟩ := statement_perform_eq_ok.1 he
    have hinner := calls_call c hi
    simpa [Instruction.call?, CallSites.statement] using hinner
  | .leave value => exact calls_leave (statement_leave_eq_ok.1 he).1

/-- The code of a block makes the calls asked for there. -/
theorem calls_statements (block : List Statement) {code : Code} {l l' : Labels}
    (he : statements ctx block l = .ok code l') :
    code.calls = (CallSites.statements block).map (CallSite.emitted ctx) := by
  match block with
  | [] =>
    obtain ⟨rfl, -⟩ := statements_nil_eq_ok.1 he
    rfl
  | s :: block =>
    obtain ⟨first, l₁, hf, others, ho, rfl⟩ := statements_cons_eq_ok.1 he
    rw [Code.calls_append, calls_statement s hf, calls_statements block ho, CallSites.statements,
      List.map_append]

end

/-- Before its statements only a constructor makes a call, for the room of its object. -/
theorem calls_prologue (t : SymbolTable) (kind : SubroutineKind) :
    (prologue t kind).calls
      = (if kind = .constructor then [.library "Memory.alloc" 1] else []).map
        (CallSite.emitted ctx) := by
  cases kind <;> rfl

/-- **The calls in the code of a subroutine are those that the subroutine asks for.** -/
theorem calls_subroutine {c : Class} {sub : Subroutine} {body : Code} {l l' : Labels}
    (he : subroutine c.name (classSymbols c) sub l = .ok body l') :
    body.calls = (CallSites.subroutine sub).map (CallSite.emitted (Meaning.context c sub)) := by
  obtain ⟨inner, hi, rfl⟩ := subroutine_eq_ok.1 he
  have hinner := calls_statements sub.body hi
  rw [Code.calls_cons, Code.calls_append, calls_prologue, hinner, CallSites.subroutine,
    List.map_append]
  rfl

end Emit

/-! ## Exact counts -/

/-- The counts in the code of a subroutine are exact and legal. Every call that the source asks for
is made with as many words as are passed, and a constructor asks for as much room as there are
fields, with a number that an integer constant may be. -/
structure Subroutine.CountsExact (c : Class) (sub : Subroutine) (body : Code) : Prop where
  calls : List.Forall₂ (CallSite.MadeBy (Meaning.context c sub)) (CallSites.subroutine sub)
    body.calls
  room : sub.kind = .constructor → ∃ n, body[1]? = some (.push .constant n) ∧
    body[2]? = some (.call "Memory.alloc" 1) ∧ n.toNat = c.fieldNames.length ∧ n.toNat ≤ 32767

/-- The counts of a subroutine fit. All words that a call of it is passed can be counted, and a
constructor makes no more fields than the largest integer constant. -/
def Subroutine.CountsFit (c : Class) (sub : Subroutine) : Prop :=
  (∀ call ∈ Calls.statements sub.body, (Meaning.context c sub).passed call < 65536) ∧
    (sub.kind = .constructor → c.fieldNames.length ≤ 32767)

instance (c : Class) (sub : Subroutine) : Decidable (sub.CountsFit c) :=
  inferInstanceAs (Decidable (_ ∧ _))

/-- All counts of a subroutine are words exactly if those of its written calls are. -/
theorem CallSites.forall_count_lt_iff {ctx : Emit.Context} {sub : Subroutine} :
    (∀ site ∈ CallSites.subroutine sub, site.count ctx < 65536) ↔
      ∀ call ∈ Calls.statements sub.body, ctx.passed call < 65536 := by
  rw [← CallSites.written_statements]
  constructor
  · intro h call hcall
    obtain ⟨site, hsite, hwritten⟩ := List.mem_filterMap.1 hcall
    cases site with
    | written call' =>
      cases hwritten
      exact h _ (List.mem_append_right _ hsite)
    | library name n => cases hwritten
  · intro h site hsite
    cases site with
    | library name n => exact UInt16.toNat_lt n
    | written call =>
      -- the room of an object is asked for by no written call
      have hbody : .written call ∈ CallSites.statements sub.body := by
        rcases List.mem_append.1 hsite with hroom | hbody
        · split at hroom <;> simp at hroom
        · exact hbody
      exact h call (List.mem_filterMap.2 ⟨_, hbody, rfl⟩)

/-- **The counts of a subroutine are exact** exactly if they fit. -/
theorem Subroutine.countsExact_iff {c : Class} {sub : Subroutine} {body : Code} {l l' : Labels}
    (he : Emit.subroutine c.name (Emit.classSymbols c) sub l = .ok body l') :
    sub.CountsExact c body ↔ sub.CountsFit c := by
  have hcalls : List.Forall₂ (CallSite.MadeBy (Meaning.context c sub))
      (CallSites.subroutine sub) body.calls ↔
      ∀ call ∈ Calls.statements sub.body, (Meaning.context c sub).passed call < 65536 := by
    rw [Emit.calls_subroutine he, List.forall₂_map_right_iff, List.forall₂_same,
      ← CallSites.forall_count_lt_iff]
    exact forall₂_congr fun site _ => CallSite.madeBy_emitted_iff
  obtain ⟨inner, -, hbody⟩ := Emit.subroutine_eq_ok.1 he
  constructor
  · rintro ⟨hexact, hroom⟩
    refine ⟨hcalls.1 hexact, fun hkind => ?_⟩
    obtain ⟨n, -, -, hn, hlimit⟩ := hroom hkind
    rwa [← hn]
  · rintro ⟨hpassed, hfields⟩
    refine ⟨hcalls.2 hpassed, fun hkind => ?_⟩
    have hfit := hfields hkind
    have hcount : (Meaning.context c sub).symbols.count .field = c.fieldNames.length :=
      Emit.count_fields
    have hexact : (UInt16.ofNat c.fieldNames.length).toNat = c.fieldNames.length :=
      UInt16.toNat_ofNat_of_lt' (Nat.lt_of_le_of_lt hfit (by decide))
    refine ⟨UInt16.ofNat c.fieldNames.length, ?_, ?_, hexact, hexact.trans_le hfit⟩
    · rw [hbody, hkind, Emit.prologue, hcount]
      rfl
    · rw [hbody, hkind]
      rfl

/-- A relation of two lists that comes to a property of the first is that property of all its
members. -/
theorem forall₂_iff_forall_mem {α β : Type} {R S : α → β → Prop} {P : α → Prop} {xs : List α}
    {ys : List β} (h : List.Forall₂ R xs ys) (hiff : ∀ x y, R x y → (S x y ↔ P x)) :
    List.Forall₂ S xs ys ↔ ∀ x ∈ xs, P x := by
  induction h with
  | nil => simp
  | cons hxy _ ih => rw [List.forall₂_cons, ih, hiff _ _ hxy, List.forall_mem_cons]

/-- The counts of a class are exact exactly if those of its subroutines fit. -/
theorem Class.countsExact_emit_iff {c : Class} {code : Code} {l l' : Labels}
    (he : c.emit l = .ok code l') :
    List.Forall₂ (Subroutine.CountsExact c) c.subroutines code.functions ↔
      ∀ sub ∈ c.subroutines, sub.CountsFit c := by
  refine forall₂_iff_forall_mem (Class.forall₂_functions he) ?_
  rintro sub body ⟨l₁, l₂, hs⟩
  exact Subroutine.countsExact_iff hs

/-- **Counts are exact as far as they fit.** In the code of a source, the counts of its calls and
constructors are exact and legal if and only if no call is passed 65536 words or more and no
constructor has more than 32767 fields to make. -/
theorem compile_countsExact_iff {source : String} {code : Code} {labels labels' : Labels}
    (h : compile source labels = .ok code labels') :
    ∃ c, Class.ofSource source = .ok c ∧
      (List.Forall₂ (Subroutine.CountsExact c) c.subroutines code.functions ↔
        ∀ sub ∈ c.subroutines, sub.CountsFit c) := by
  obtain ⟨c, hsource, he⟩ := compile_eq_ok.1 h
  exact ⟨c, hsource, Class.countsExact_emit_iff he⟩

/-- A source with a constructor that passes a string to a method of its object. -/
def namedPair : String :=
  "class P \x7b field int x, y; constructor P new() \x7b do f(x * 2, \"p\"); return this; \x7d \x7d"

/-- The class of the source. -/
def namedPairClass : Class where
  name := "P"
  vars := [(.field, ⟨.int, ["x", "y"]⟩)]
  subroutines := [
    { kind := .constructor, result := some (.object "P"), name := "new", parameters := []
      locals := []
      body := [
        .perform (.mk none "f" [.mk (.var "x") [(.mul, .integer 2)], .mk (.string "p") []]),
        .leave (some (.mk (.constant .this) []))] }]

/-- The code of the source. -/
def namedPairCode : Code :=
  [.function "P.new" 0, .push .constant 2, .call "Memory.alloc" 1, .pop .pointer 0,
    .push .pointer 0, .push .this 0, .push .constant 2, .call "Math.multiply" 2,
    .push .constant 1, .call "String.new" 1, .push .constant 112, .call "String.appendChar" 2,
    .call "P.f" 3, .pop .temp 0, .push .pointer 0, .ret]

theorem namedPair_countsExact :
    compile namedPair ⟨0⟩ = .ok namedPairCode ⟨0⟩ ∧ Class.ofSource namedPair = .ok namedPairClass ∧
      List.Forall₂ (Subroutine.CountsExact namedPairClass) namedPairClass.subroutines
        namedPairCode.functions := by
  have hsource : Class.ofSource namedPair = .ok namedPairClass :=
    Class.ofSource_of_spelling (by decide +kernel) ⟨by decide, by decide⟩
  have he : namedPairClass.emit ⟨0⟩ = .ok namedPairCode ⟨0⟩ :=
    Labels.eq_ok (by decide +kernel) (by decide +kernel)
  have h : compile namedPair ⟨0⟩ = .ok namedPairCode ⟨0⟩ :=
    compile_eq_ok.2 ⟨namedPairClass, hsource, he⟩
  obtain ⟨c, hc, hiff⟩ := compile_countsExact_iff h
  obtain rfl : c = namedPairClass := Except.ok.inj (hc.symm.trans hsource)
  exact ⟨h, hsource, hiff.2 (by decide +kernel)⟩

/-! ## Counts that do not fit -/

/-- The argument `0`, again and again. -/
def zeros (n : Nat) : List Expr :=
  List.replicate n (.mk (.integer 0) [])

/-- A class with a call that has `n` arguments. -/
def manyArguments (n : Nat) : Class where
  name := "A"
  vars := []
  subroutines := [
    { kind := .function, result := none, name := "f", parameters := [], locals := []
      body := [.perform (.mk (some "Foo") "g" (zeros n)), .leave none] }]

/-- A class with `n` fields and a constructor. -/
def manyFields (n : Nat) : Class where
  name := "A"
  vars := [(.field, ⟨.int, List.replicate n "x"⟩)]
  subroutines := [
    { kind := .constructor, result := some (.object "A"), name := "new", parameters := []
      locals := [], body := [.leave (some (.mk (.constant .this) []))] }]

/-- The class has a source that compiles, with a number for each of its variables and no call that
is passed an object and 65535 arguments, but some count in its code is not exact or not legal. -/
def Class.Miscounted (c : Class) : Prop :=
  ∃ code labels, Class.ofSource c.text = .ok c ∧ compile c.text ⟨0⟩ = .ok code labels ∧
    c.VariablesFit ∧ (∀ call ∈ Calls.ofClass c, call.args.length ≠ 65535) ∧
    ¬ List.Forall₂ (Subroutine.CountsExact c) c.subroutines code.functions

/-- A class whose counts do not fit is miscounted, if it uses no variables. -/
theorem Class.miscounted_of_not_countsFit {c : Class} (hdeclares : c.Declares)
    (hkinds : ∀ k ∈ c.spelling, k.WellFormed) (huses : c.uses = []) (hvars : c.VariablesFit)
    (hcalls : ∀ call ∈ Calls.ofClass c, call.args.length ≠ 65535)
    (hfit : ¬ ∀ sub ∈ c.subroutines, sub.CountsFit c) : c.Miscounted := by
  have hsource := Class.ofSource_text hdeclares hkinds
  obtain ⟨code, labels, he⟩ : ∃ code labels, c.emit ⟨0⟩ = .ok code labels := by
    rw [c.exists_emit_eq_ok_iff ⟨0⟩, huses]
    exact List.forall_mem_nil _
  refine ⟨code, labels, hsource, compile_eq_ok.2 ⟨c, hsource, he⟩, hvars, hcalls, ?_⟩
  rwa [Class.countsExact_emit_iff he]

/-- In a list with commas there is nothing else besides its parts. -/
theorem wellFormed_commaSeparated {kss : List (List Token.Kind)}
    (h : ∀ ks ∈ kss, ∀ k ∈ ks, k.WellFormed) : ∀ k ∈ commaSeparated kss, k.WellFormed := by
  intro k hk
  rcases Text.eq_or_mem_of_mem_intercalate hk with rfl | ⟨ks, hks, hk⟩
  · decide
  · exact h ks hks k hk

/-- Zeros are the only terms in a list of them. -/
theorem terms_zeros (n : Nat) : Terms.arguments (zeros n) = List.replicate n (.integer 0) := by
  induction n with
  | zero => rfl
  | succ n ih => exact congrArg (Term.integer 0 :: ·) ih

/-- There is no call in a list of zeros. -/
theorem calls_zeros (n : Nat) : Calls.arguments (zeros n) = [] := by
  induction n with
  | zero => rfl
  | succ n ih => exact ih

/-- A list of zeros can be spelled. -/
theorem wellFormed_zeros (n : Nat) :
    ∀ k ∈ commaSeparated (Spelling.arguments (zeros n)), k.WellFormed := by
  refine wellFormed_commaSeparated fun ks hks k hk => ?_
  rw [Reader.arguments_eq_map] at hks
  obtain ⟨e, he, rfl⟩ := List.mem_map.1 hks
  obtain rfl := List.eq_of_mem_replicate he
  obtain rfl := List.mem_singleton.1 hk
  decide

/-- A call with any number of arguments can be spelled. -/
theorem manyArguments_wellFormed (n : Nat) :
    ∀ k ∈ (manyArguments n).spelling, k.WellFormed := by
  have hspelling : (manyArguments n).spelling
      = ([.keyword .class, .name "A", .symbol '{', .keyword .function, .keyword .void, .name "f",
          .symbol '(', .symbol ')', .symbol '{', .keyword .do, .name "Foo", .symbol '.', .name "g",
          .symbol '('] : List Token.Kind)
        ++ (commaSeparated (Spelling.arguments (zeros n)) ++ ([.symbol ')', .symbol ';',
          .keyword .return, .symbol ';', .symbol '}', .symbol '}'] : List Token.Kind)) := by
    simp [manyArguments, Class.spelling, Spelling.subroutine, Spelling.signature,
      Spelling.subroutineKind, Spelling.statements, Spelling.statement, Spelling.call,
      commaSeparated]
  rw [hspelling]
  exact List.forall_mem_append.2 ⟨by decide +kernel,
    List.forall_mem_append.2 ⟨wellFormed_zeros n, by decide +kernel⟩⟩

/-- A call with 65536 arguments or more is miscounted. -/
theorem manyArguments_miscounted {n : Nat} (hn : 65536 ≤ n) : (manyArguments n).Miscounted := by
  have hlength : (zeros n).length = n := List.length_replicate
  have hdeclares : (manyArguments n).Declares :=
    ⟨List.forall_mem_nil _, by simp [manyArguments]⟩
  have huses : (manyArguments n).uses = [] := by
    simp [Class.uses, manyArguments, Uses.statements, Uses.statement, Terms.call, Terms.optional,
      terms_zeros, Uses.terms, Term.variable?]
  have hvars : (manyArguments n).VariablesFit := by
    intro sub hsub kind
    obtain rfl := List.mem_singleton.1 hsub
    cases kind <;> exact (by decide : 0 < 65536)
  have hcalls : Calls.ofClass (manyArguments n) = [.mk (some "Foo") "g" (zeros n)] := by
    simp [Calls.ofClass, manyArguments, Calls.statements, Calls.statement, Calls.call,
      Calls.optional, calls_zeros]
  refine Class.miscounted_of_not_countsFit hdeclares (manyArguments_wellFormed n) huses hvars ?_ ?_
  · rw [hcalls]
    intro call hcall
    obtain rfl := List.mem_singleton.1 hcall
    rw [Call.args, hlength]
    omega
  · intro hfit
    have hpassed := (hfit _ List.mem_cons_self).1 (.mk (some "Foo") "g" (zeros n)) (by
      simp [Calls.statements, Calls.statement, Calls.call])
    rw [Emit.Context.passed, Call.args, hlength] at hpassed
    omega

/-- A class with any number of fields can be spelled. -/
theorem manyFields_wellFormed (n : Nat) : ∀ k ∈ (manyFields n).spelling, k.WellFormed := by
  have hnames : ∀ k ∈ commaSeparated ((List.replicate n "x").map fun name => [.name name]),
      k.WellFormed := by
    refine wellFormed_commaSeparated fun ks hks k hk => ?_
    obtain ⟨name, hname, rfl⟩ := List.mem_map.1 hks
    obtain rfl := List.eq_of_mem_replicate hname
    obtain rfl := List.mem_singleton.1 hk
    decide +kernel
  have hspelling : (manyFields n).spelling
      = ([.keyword .class, .name "A", .symbol '{', .keyword .field, .keyword .int] :
          List Token.Kind)
        ++ (commaSeparated ((List.replicate n "x").map fun name => [.name name])
          ++ ([.symbol ';', .keyword .constructor, .name "A", .name "new", .symbol '(', .symbol ')',
            .symbol '{', .keyword .return, .keyword .this, .symbol ';', .symbol '}',
            .symbol '}'] : List Token.Kind)) := by
    simp [manyFields, Class.spelling, Spelling.classVarKind, Spelling.varDec, VarType.spelling,
      Spelling.subroutine, Spelling.signature, Spelling.subroutineKind, Spelling.statements,
      Spelling.statement, Spelling.expr, Spelling.term, Spelling.operands,
      NamedConstant.spelling, commaSeparated]
  rw [hspelling]
  exact List.forall_mem_append.2 ⟨by decide +kernel,
    List.forall_mem_append.2 ⟨hnames, by decide +kernel⟩⟩

/-- A class with more than 32767 fields asks for room with a number that is no constant of the
language. -/
theorem manyFields_miscounted {n : Nat} (hn : 32767 < n) (hn' : n < 65536) :
    (manyFields n).Miscounted := by
  have hfields : (manyFields n).fieldNames.length = n := by
    simp [Class.fieldNames, manyFields]
  have hdeclares : (manyFields n).Declares := by
    refine ⟨?_, by simp [manyFields]⟩
    simp only [manyFields, List.mem_singleton, forall_eq, ne_eq, List.replicate_eq_nil_iff]
    omega
  have hvars : (manyFields n).VariablesFit := by
    intro sub hsub kind
    obtain rfl := List.mem_singleton.1 hsub
    cases kind with
    | field => exact hfields.trans_lt hn'
    | _ => exact (by decide : 0 < 65536)
  refine Class.miscounted_of_not_countsFit hdeclares (manyFields_wellFormed n) rfl hvars
    (List.forall_mem_nil _) fun hfit => ?_
  have hlimit := (hfit _ List.mem_cons_self).2 rfl
  omega

/-- **Not all counts fit.** Nothing keeps a call from having 65536 arguments, or a class with a
constructor from having 32768 fields. -/
theorem manyArguments_manyFields_miscounted :
    (manyArguments 65536).Miscounted ∧ (manyFields 32768).Miscounted :=
  ⟨manyArguments_miscounted (Nat.le_refl _), manyFields_miscounted (by decide) (by decide)⟩

end JackCompiler
