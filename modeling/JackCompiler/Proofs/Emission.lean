import JackCompiler.Emit.Class
import JackCompiler.Proofs.Fallible
/-!
# When code is emitted

For every form of expression and statement: what code it has, read off the code of its parts, and
how the label counter moves. Each lemma says everything about a successful emission, so the proofs
about code need not open the emitting functions again. What can be said of every single instruction
follows from `OfExpr` and `OfStatement`, which list the instructions that are emitted.
-/

namespace JackCompiler

namespace Emit

variable {ctx : Context} {code : Code}

/-! ## Expressions -/

/-- A name is found exactly if it resolves to a symbol. -/
theorem lookup_eq_ok {name : String} {s : Symbol} :
    ctx.lookup name = .ok s ↔ ctx.symbols.resolve name = some s := by
  unfold Context.lookup
  split <;> simp_all

/-- An expression has the code of its first term, and behind it that of its operands. -/
theorem expr_eq_ok {head : Term} {tail : List (BinaryOp × Term)} :
    expr ctx (.mk head tail) = .ok code ↔
      ∃ first, term ctx head = .ok first ∧ ∃ rest, operands ctx tail = .ok rest ∧
        code = first ++ rest := by
  simp only [expr, Fallible.bind_eq_ok, Fallible.pure_eq_ok]

theorem operands_nil_eq_ok : operands ctx [] = .ok code ↔ code = [] := by
  simp only [operands, Fallible.pure_eq_ok]

/-- An operand has its own code before that of its operator. -/
theorem operands_cons_eq_ok {op : BinaryOp} {t : Term} {tail : List (BinaryOp × Term)} :
    operands ctx ((op, t) :: tail) = .ok code ↔
      ∃ first, term ctx t = .ok first ∧ ∃ rest, operands ctx tail = .ok rest ∧
        code = first ++ binary op :: rest := by
  simp only [operands, Fallible.bind_eq_ok, Fallible.pure_eq_ok]

/-- A number is pushed. -/
theorem term_integer_eq_ok {n : UInt16} :
    term ctx (.integer n) = .ok code ↔ code = [.push .constant n] := by
  simp only [term, Fallible.pure_eq_ok]

/-- A string is built character by character. -/
theorem term_string_eq_ok {s : String} : term ctx (.string s) = .ok code ↔ code = string s := by
  simp only [term, Fallible.pure_eq_ok]

theorem term_constant_eq_ok {c : NamedConstant} :
    term ctx (.constant c) = .ok code ↔ code = constant c := by
  simp only [term, Fallible.pure_eq_ok]

/-- Parentheses leave nothing in the code. -/
theorem term_paren_eq_ok {e : Expr} :
    term ctx (.paren e) = .ok code ↔ expr ctx e = .ok code := by
  rw [term]

/-- A unary operator comes behind its term. -/
theorem term_unary_eq_ok {op : UnaryOp} {t : Term} :
    term ctx (.unary op t) = .ok code ↔
      ∃ inner, term ctx t = .ok inner ∧ code = inner ++ [unary op] := by
  simp only [term, Fallible.bind_eq_ok, Fallible.pure_eq_ok]

/-- A variable is pushed from its place. -/
theorem term_var_eq_ok {name : String} :
    term ctx (.var name) = .ok code ↔
      ∃ s, ctx.symbols.resolve name = some s ∧ code = [pushSymbol s] := by
  simp only [term, Fallible.bind_eq_ok, Fallible.pure_eq_ok, lookup_eq_ok]

/-- An entry of an array is read through `that`, with the sum of base and offset as its address. -/
theorem term_index_eq_ok {name : String} {e : Expr} :
    term ctx (.index name e) = .ok code ↔
      ∃ s, ctx.symbols.resolve name = some s ∧ ∃ offset, expr ctx e = .ok offset ∧
        code = pushSymbol s :: (offset ++ [.compute .add, .pop .pointer 1, .push .that 0]) := by
  simp only [term, Fallible.bind_eq_ok, Fallible.pure_eq_ok, lookup_eq_ok]

/-- A call in an expression has the code of the call. -/
theorem term_call_eq_ok {c : Call} : term ctx (.call c) = .ok code ↔ call ctx c = .ok code := by
  rw [term]

/-- A call has the code of its arguments before its own. -/
theorem call_eq_ok {receiver : Option String} {name : String} {args : List Expr} :
    call ctx (.mk receiver name args) = .ok code ↔
      ∃ inner, arguments ctx args = .ok inner ∧
        code = callWith ctx receiver name inner (UInt16.ofNat args.length) := by
  simp only [call, Fallible.bind_eq_ok, Fallible.pure_eq_ok]

theorem arguments_nil_eq_ok : arguments ctx [] = .ok code ↔ code = [] := by
  simp only [arguments, Fallible.pure_eq_ok]

/-- Arguments are pushed in order. -/
theorem arguments_cons_eq_ok {e : Expr} {es : List Expr} :
    arguments ctx (e :: es) = .ok code ↔
      ∃ first, expr ctx e = .ok first ∧ ∃ rest, arguments ctx es = .ok rest ∧
        code = first ++ rest := by
  simp only [arguments, Fallible.bind_eq_ok, Fallible.pure_eq_ok]

/-! ## Statements -/

/-- A value is popped to the place of its variable. -/
theorem assign_none_eq_ok {name : String} {value : Expr} :
    assign ctx name none value = .ok code ↔
      ∃ s, ctx.symbols.resolve name = some s ∧ ∃ inner, expr ctx value = .ok inner ∧
        code = inner ++ [popSymbol s] := by
  simp only [assign, Fallible.bind_eq_ok, Fallible.pure_eq_ok, lookup_eq_ok]

/-- The address of an entry is pushed before the value, and used behind it. -/
theorem assign_some_eq_ok {name : String} {index value : Expr} :
    assign ctx name (some index) value = .ok code ↔
      ∃ s, ctx.symbols.resolve name = some s ∧ ∃ offset, expr ctx index = .ok offset ∧
        ∃ inner, expr ctx value = .ok inner ∧
        code = pushSymbol s :: (offset ++ .compute .add :: (inner
          ++ [.pop .temp 0, .pop .pointer 1, .push .temp 0, .pop .that 0])) := by
  simp only [assign, Fallible.bind_eq_ok, Fallible.pure_eq_ok, lookup_eq_ok]

/-- The end of the code of a `return`. -/
def leaveTail (ctx : Context) : Code :=
  if ctx.isVoid then [.push .constant 0, .ret] else [.ret]

/-- A `return` without a value has no code of its own before the end. -/
theorem leave_none_eq_ok : leave ctx none = .ok code ↔ code = leaveTail ctx := by
  simp only [leave, Fallible.bind_eq_ok, Fallible.pure_eq_ok, exists_eq_left, leaveTail,
    List.nil_append]

/-- A value that is returned is pushed first. -/
theorem leave_some_eq_ok {e : Expr} :
    leave ctx (some e) = .ok code ↔
      ∃ inner, expr ctx e = .ok inner ∧ code = inner ++ leaveTail ctx := by
  simp only [leave, Fallible.bind_eq_ok, Fallible.pure_eq_ok, leaveTail]

variable {l l' : Labels}

/-- **A pair of labels takes one number**, and never fails. -/
theorem freshPair_eq_ok {stem first second : String} {p : String × String} :
    freshPair stem first second l = .ok p l' ↔
      p = (Labels.text stem first l.next, Labels.text stem second l.next) ∧
        l' = ⟨l.next + 1⟩ := by
  change EStateM.Result.ok (l.pair stem first second).1 (l.pair stem first second).2 = .ok p l' ↔ _
  simp [Labels.pair, eq_comm]

/-- An assignment takes no label. -/
theorem statement_assign_eq_ok {name : String} {index : Option Expr} {value : Expr} :
    statement ctx (.assign name index value) l = .ok code l' ↔
      assign ctx name index value = .ok code ∧ l' = l := by
  rw [statement, Fallible.run_ofExcept_eq_ok]

/-- The code of a branch, with its parts and the labels between them. -/
def branchCode (n : Nat) (test first second : Code) : Code :=
  test ++ .compute .not :: .ifGoto (Labels.text "IF" "FALSE" n) :: (first
    ++ .goto (Labels.text "IF" "END" n) :: .label (Labels.text "IF" "FALSE" n)
    :: (second ++ [.label (Labels.text "IF" "END" n)]))

/-- The code of a loop, with its parts and the labels between them. -/
def loopCode (n : Nat) (test code : Code) : Code :=
  .label (Labels.text "WHILE" "EXP" n) :: (test
    ++ .compute .not :: .ifGoto (Labels.text "WHILE" "END" n) :: (code
    ++ [.goto (Labels.text "WHILE" "EXP" n), .label (Labels.text "WHILE" "END" n)]))

theorem statements_nil_eq_ok : statements ctx [] l = .ok code l' ↔ code = [] ∧ l' = l := by
  rw [statements, Fallible.run_pure_eq_ok]

/-- A branch takes its number before its blocks, and its second block goes on from the labels of the
first. Without a second block its code is that of an empty one. -/
theorem statement_branch_eq_ok {condition : Expr} {yes : List Statement}
    {no : Option (List Statement)} :
    statement ctx (.branch condition yes no) l = .ok code l' ↔
      ∃ test, expr ctx condition = .ok test ∧
        ∃ first l₁, statements ctx yes ⟨l.next + 1⟩ = .ok first l₁ ∧
        ∃ second, statements ctx (no.getD []) l₁ = .ok second l' ∧
        code = branchCode l.next test first second := by
  -- a missing second block takes its own path through the emitter, with the code of an empty one
  cases no with
  | none =>
    simp only [statement, Fallible.run_bind_eq_ok, freshPair_eq_ok, Fallible.run_ofExcept_eq_ok,
      Fallible.run_pure_eq_ok, Option.getD_none, statements_nil_eq_ok, branchCode]
    constructor
    · rintro ⟨p, l₁, ⟨rfl, rfl⟩, test, l₂, ⟨ht, rfl⟩, first, l₃, hf, second, l₄, ⟨rfl, rfl⟩, rfl,
        rfl⟩
      exact ⟨test, ht, first, _, hf, [], ⟨rfl, rfl⟩, rfl⟩
    · rintro ⟨test, ht, first, l₁, hf, second, ⟨rfl, rfl⟩, rfl⟩
      exact ⟨_, _, ⟨rfl, rfl⟩, test, _, ⟨ht, rfl⟩, first, _, hf, [], _, ⟨rfl, rfl⟩, rfl, rfl⟩
  | some block =>
    simp only [statement, Fallible.run_bind_eq_ok, freshPair_eq_ok, Fallible.run_ofExcept_eq_ok,
      Fallible.run_pure_eq_ok, Option.getD_some, branchCode]
    constructor
    · rintro ⟨p, l₁, ⟨rfl, rfl⟩, test, l₂, ⟨ht, rfl⟩, first, l₃, hf, second, l₄, hs, rfl, rfl⟩
      exact ⟨test, ht, first, _, hf, second, hs, rfl⟩
    · rintro ⟨test, ht, first, l₁, hf, second, hs, rfl⟩
      exact ⟨_, _, ⟨rfl, rfl⟩, test, _, ⟨ht, rfl⟩, first, _, hf, second, _, hs, rfl, rfl⟩

/-- A loop takes its number before its body. -/
theorem statement_loop_eq_ok {condition : Expr} {body : List Statement} :
    statement ctx (.loop condition body) l = .ok code l' ↔
      ∃ test, expr ctx condition = .ok test ∧
        ∃ inner, statements ctx body ⟨l.next + 1⟩ = .ok inner l' ∧
        code = loopCode l.next test inner := by
  simp only [statement, Fallible.run_bind_eq_ok, freshPair_eq_ok, Fallible.run_ofExcept_eq_ok,
    Fallible.run_pure_eq_ok, loopCode]
  constructor
  · rintro ⟨p, l₁, ⟨rfl, rfl⟩, test, l₂, ⟨ht, rfl⟩, inner, l₃, hi, rfl, rfl⟩
    exact ⟨test, ht, inner, hi, rfl⟩
  · rintro ⟨test, ht, inner, hi, rfl⟩
    exact ⟨_, _, ⟨rfl, rfl⟩, test, _, ⟨ht, rfl⟩, inner, _, hi, rfl, rfl⟩

/-- The value of a call that is only performed is dropped. -/
theorem statement_perform_eq_ok {c : Call} :
    statement ctx (.perform c) l = .ok code l' ↔
      (∃ inner, call ctx c = .ok inner ∧ code = inner ++ [.pop .temp 0]) ∧ l' = l := by
  simp only [statement, Fallible.run_bind_eq_ok, Fallible.run_ofExcept_eq_ok,
    Fallible.run_pure_eq_ok]
  constructor
  · rintro ⟨inner, l₁, ⟨hi, rfl⟩, rfl, rfl⟩
    exact ⟨⟨inner, hi, rfl⟩, rfl⟩
  · rintro ⟨⟨inner, hi, rfl⟩, rfl⟩
    exact ⟨inner, _, ⟨hi, rfl⟩, rfl, rfl⟩

/-- A `return` takes no label. -/
theorem statement_leave_eq_ok {value : Option Expr} :
    statement ctx (.leave value) l = .ok code l' ↔ leave ctx value = .ok code ∧ l' = l := by
  rw [statement, Fallible.run_ofExcept_eq_ok]

/-- The statements of a block are emitted in order, each with the labels that the one before it
leaves. -/
theorem statements_cons_eq_ok {s : Statement} {rest : List Statement} :
    statements ctx (s :: rest) l = .ok code l' ↔
      ∃ first l₁, statement ctx s l = .ok first l₁ ∧
        ∃ others, statements ctx rest l₁ = .ok others l' ∧ code = first ++ others := by
  simp only [statements, Fallible.run_bind_eq_ok, Fallible.run_pure_eq_ok]
  constructor
  · rintro ⟨first, l₁, hf, others, l₂, ho, rfl, rfl⟩
    exact ⟨first, l₁, hf, others, ho, rfl⟩
  · rintro ⟨first, l₁, hf, others, ho, rfl⟩
    exact ⟨first, l₁, hf, others, _, ho, rfl, rfl⟩

/-! ## Instructions of expressions -/

end Emit

/-- Code of instructions with a property. -/
def Code.All (P : Instruction → Prop) (code : Code) : Prop :=
  ∀ i ∈ code, P i

namespace Code

variable {P Q : Instruction → Prop} {i : Instruction} {code a b : Code}

@[simp]
theorem all_nil : All P [] := by
  simp [All]

@[simp]
theorem all_cons : All P (i :: code) ↔ P i ∧ All P code :=
  List.forall_mem_cons

@[simp]
theorem all_append : All P (a ++ b) ↔ All P a ∧ All P b :=
  List.forall_mem_append

theorem All.imp (hPQ : ∀ i, P i → Q i) (h : All P code) : All Q code :=
  fun i hi => hPQ i (h i hi)

end Code

namespace Emit

variable {ctx : Context} {code : Code}

/-- The instructions that expressions and assignments are made of. -/
inductive OfExpr (ctx : Context) : Instruction → Prop
  | constant (n : UInt16) : OfExpr ctx (.push .constant n)
  /-- The current object. -/
  | object : OfExpr ctx (.push .pointer 0)
  | read {name : String} {s : Symbol} :
      ctx.symbols.resolve name = some s → OfExpr ctx (pushSymbol s)
  | write {name : String} {s : Symbol} :
      ctx.symbols.resolve name = some s → OfExpr ctx (popSymbol s)
  /-- The address of an entry is set. -/
  | address : OfExpr ctx (.pop .pointer 1)
  | readEntry : OfExpr ctx (.push .that 0)
  | writeEntry : OfExpr ctx (.pop .that 0)
  /-- A value is put aside, or dropped. -/
  | putAside : OfExpr ctx (.pop .temp 0)
  | takeBack : OfExpr ctx (.push .temp 0)
  | compute (op : Operation) : OfExpr ctx (.compute op)
  | call (name : String) (count : UInt16) : OfExpr ctx (.call name count)

attribute [simp] OfExpr.constant OfExpr.object OfExpr.address OfExpr.readEntry OfExpr.writeEntry
  OfExpr.putAside OfExpr.takeBack OfExpr.compute OfExpr.call

theorem ofExpr_string (s : String) : Code.All (OfExpr ctx) (string s) := by
  intro i hi
  simp only [string, List.mem_append, List.mem_cons, List.mem_flatMap, List.not_mem_nil,
    or_false] at hi
  rcases hi with (rfl | rfl) | ⟨c, -, rfl | rfl⟩ <;> simp

/-- The receiver and the call itself add only instructions of expressions. -/
theorem ofExpr_callWith {receiver : Option String} {name : String} {count : UInt16}
    (h : code.All (OfExpr ctx)) :
    Code.All (OfExpr ctx) (callWith ctx receiver name code count) := by
  unfold callWith
  split
  · simp [h]
  · split
    · rename_i s hs
      simp [h, OfExpr.read hs]
    · simp [h]

mutual

/-- **The code of an expression holds only instructions of expressions.** -/
theorem ofExpr_expr (e : Expr) {code : Code} (he : expr ctx e = .ok code) :
    code.All (OfExpr ctx) := by
  obtain ⟨head, tail⟩ := e
  obtain ⟨first, hf, rest, hr, rfl⟩ := expr_eq_ok.1 he
  exact Code.all_append.2 ⟨ofExpr_term head hf, ofExpr_operands tail hr⟩

/-- So does the code of its operands. -/
theorem ofExpr_operands (tail : List (BinaryOp × Term)) {code : Code}
    (he : operands ctx tail = .ok code) : code.All (OfExpr ctx) := by
  match tail with
  | [] =>
    obtain rfl := operands_nil_eq_ok.1 he
    exact Code.all_nil
  | (op, t) :: tail =>
    obtain ⟨first, hf, rest, hr, rfl⟩ := operands_cons_eq_ok.1 he
    have hop : OfExpr ctx (binary op) := by cases op <;> simp [binary]
    exact Code.all_append.2 ⟨ofExpr_term t hf, Code.all_cons.2 ⟨hop, ofExpr_operands tail hr⟩⟩

/-- So does the code of a term. -/
theorem ofExpr_term (t : Term) {code : Code} (he : term ctx t = .ok code) :
    code.All (OfExpr ctx) := by
  match t with
  | .integer n =>
    obtain rfl := term_integer_eq_ok.1 he
    simp
  | .string s =>
    obtain rfl := term_string_eq_ok.1 he
    exact ofExpr_string s
  | .constant c =>
    obtain rfl := term_constant_eq_ok.1 he
    cases c <;> simp [constant]
  | .paren e => exact ofExpr_expr e (term_paren_eq_ok.1 he)
  | .unary op t =>
    obtain ⟨inner, hi, rfl⟩ := term_unary_eq_ok.1 he
    have hop : OfExpr ctx (unary op) := by cases op <;> simp [unary]
    simp [ofExpr_term t hi, hop]
  | .var name =>
    obtain ⟨s, hs, rfl⟩ := term_var_eq_ok.1 he
    simp [OfExpr.read hs]
  | .index name e =>
    obtain ⟨s, hs, offset, ho, rfl⟩ := term_index_eq_ok.1 he
    simp [OfExpr.read hs, ofExpr_expr e ho]
  | .call c => exact ofExpr_call c (term_call_eq_ok.1 he)

/-- So does the code of a call. -/
theorem ofExpr_call (c : Call) {code : Code} (he : call ctx c = .ok code) :
    code.All (OfExpr ctx) := by
  obtain ⟨receiver, name, args⟩ := c
  obtain ⟨inner, hi, rfl⟩ := call_eq_ok.1 he
  exact ofExpr_callWith (ofExpr_arguments args hi)

/-- So does the code of arguments. -/
theorem ofExpr_arguments (es : List Expr) {code : Code} (he : arguments ctx es = .ok code) :
    code.All (OfExpr ctx) := by
  match es with
  | [] =>
    obtain rfl := arguments_nil_eq_ok.1 he
    exact Code.all_nil
  | e :: es =>
    obtain ⟨first, hf, rest, hr, rfl⟩ := arguments_cons_eq_ok.1 he
    exact Code.all_append.2 ⟨ofExpr_expr e hf, ofExpr_arguments es hr⟩

end

/-- An assignment needs no other instructions than expressions do. -/
theorem ofExpr_assign {name : String} {index : Option Expr} {value : Expr}
    (he : assign ctx name index value = .ok code) : code.All (OfExpr ctx) := by
  cases index with
  | none =>
    obtain ⟨s, hs, inner, hi, rfl⟩ := assign_none_eq_ok.1 he
    simp [OfExpr.write hs, ofExpr_expr value hi]
  | some index =>
    obtain ⟨s, hs, offset, ho, inner, hi, rfl⟩ := assign_some_eq_ok.1 he
    simp [OfExpr.read hs, ofExpr_expr value hi, ofExpr_expr index ho]

/-- The code of a `return` is that of an expression up to its last instruction. -/
theorem leave_eq_append_ret {value : Option Expr} (he : leave ctx value = .ok code) :
    ∃ inner : Code, inner.All (OfExpr ctx) ∧ code = inner ++ [.ret] := by
  have htail : ∃ inner : Code, inner.All (OfExpr ctx) ∧ leaveTail ctx = inner ++ [.ret] := by
    unfold leaveTail
    split
    · exact ⟨[.push .constant 0], by simp, rfl⟩
    · exact ⟨[], Code.all_nil, rfl⟩
  obtain ⟨tail, ht, htail⟩ := htail
  cases value with
  | none =>
    obtain rfl := leave_none_eq_ok.1 he
    exact ⟨tail, ht, htail⟩
  | some e =>
    obtain ⟨inner, hi, rfl⟩ := leave_some_eq_ok.1 he
    exact ⟨inner ++ tail, Code.all_append.2 ⟨ofExpr_expr e hi, ht⟩,
      by rw [htail, List.append_assoc]⟩

end Emit

/-- Does the run of a function simply go on behind the instruction? -/
def Instruction.isPlain : Instruction → Bool
  | push .. => true
  | pop .. => true
  | compute _ => true
  | call .. => true
  | _ => false

/-- Code that is run from its first instruction to its last. -/
def Code.Plain (code : Code) : Prop :=
  ∀ i ∈ code, i.isPlain

@[simp]
theorem Code.plain_nil : Code.Plain [] := by
  simp [Code.Plain]

@[simp]
theorem Code.plain_cons {i : Instruction} {code : Code} :
    Code.Plain (i :: code) ↔ i.isPlain ∧ code.Plain :=
  List.forall_mem_cons

namespace Emit

variable {ctx : Context} {code : Code}

/-- **Expressions neither jump nor mark labels.** -/
theorem plain_of_ofExpr (h : code.All (OfExpr ctx)) : code.Plain := by
  intro i hi
  cases h i hi <;> rfl

/-- The code of an expression runs straight through. -/
theorem plain_expr (e : Expr) (he : expr ctx e = .ok code) : code.Plain :=
  plain_of_ofExpr (ofExpr_expr e he)

/-- So does the code of a call. -/
theorem plain_call (c : Call) (he : call ctx c = .ok code) : code.Plain :=
  plain_of_ofExpr (ofExpr_call c he)

/-- So does the code of an assignment. -/
theorem plain_assign {name : String} {index : Option Expr} {value : Expr}
    (he : assign ctx name index value = .ok code) : code.Plain :=
  plain_of_ofExpr (ofExpr_assign he)

/-! ## Instructions of statements -/

/-- The instructions that statements are made of. -/
inductive OfStatement (ctx : Context) : Instruction → Prop
  | ofExpr {i : Instruction} : OfExpr ctx i → OfStatement ctx i
  | label (name : String) : OfStatement ctx (.label name)
  | goto (name : String) : OfStatement ctx (.goto name)
  | ifGoto (name : String) : OfStatement ctx (.ifGoto name)
  | ret : OfStatement ctx .ret

attribute [simp] OfStatement.label OfStatement.goto OfStatement.ifGoto OfStatement.ret

/-- An instruction of an expression is one of a statement. -/
theorem ofStatement_of_ofExpr (h : code.All (OfExpr ctx)) : code.All (OfStatement ctx) :=
  h.imp fun _ => .ofExpr

mutual

/-- **The code of a statement holds only instructions of statements.** -/
theorem ofStatement_statement (s : Statement) {code : Code} {l l' : Labels}
    (he : statement ctx s l = .ok code l') : code.All (OfStatement ctx) := by
  match s with
  | .assign name index value =>
    exact ofStatement_of_ofExpr (ofExpr_assign (statement_assign_eq_ok.1 he).1)
  | .branch condition yes no =>
    obtain ⟨test, ht, first, l₁, hf, second, hs, rfl⟩ := statement_branch_eq_ok.1 he
    have htest := ofStatement_of_ofExpr (ofExpr_expr condition ht)
    have hsecond : second.All (OfStatement ctx) := by
      match no, hs with
      | none, hs =>
        obtain ⟨rfl, -⟩ := statements_nil_eq_ok.1 hs
        exact Code.all_nil
      | some block, hs => exact ofStatement_statements block hs
    simp [branchCode, htest, OfStatement.ofExpr, ofStatement_statements yes hf, hsecond]
  | .loop condition body =>
    obtain ⟨test, ht, inner, hi, rfl⟩ := statement_loop_eq_ok.1 he
    have htest := ofStatement_of_ofExpr (ofExpr_expr condition ht)
    simp [loopCode, htest, OfStatement.ofExpr, ofStatement_statements body hi]
  | .perform c =>
    obtain ⟨⟨inner, hi, rfl⟩, -⟩ := statement_perform_eq_ok.1 he
    simp [ofStatement_of_ofExpr (ofExpr_call c hi), OfStatement.ofExpr]
  | .leave value =>
    obtain ⟨inner, hi, rfl⟩ := leave_eq_append_ret (statement_leave_eq_ok.1 he).1
    simp [ofStatement_of_ofExpr hi]

/-- So does the code of a block. -/
theorem ofStatement_statements (block : List Statement) {code : Code} {l l' : Labels}
    (he : statements ctx block l = .ok code l') : code.All (OfStatement ctx) := by
  match block with
  | [] =>
    obtain ⟨rfl, -⟩ := statements_nil_eq_ok.1 he
    exact Code.all_nil
  | s :: block =>
    obtain ⟨first, l₁, hf, others, ho, rfl⟩ := statements_cons_eq_ok.1 he
    exact Code.all_append.2 ⟨ofStatement_statement s hf, ofStatement_statements block ho⟩

end

/-! ## Functions -/

end Emit

/-- Code in which no function begins. -/
def Code.Inner (code : Code) : Prop :=
  ∀ i ∈ code, i.isFunction = false

@[simp]
theorem Code.inner_cons {i : Instruction} {code : Code} :
    Code.Inner (i :: code) ↔ i.isFunction = false ∧ code.Inner :=
  List.forall_mem_cons

@[simp]
theorem Code.inner_append {a b : Code} : Code.Inner (a ++ b) ↔ a.Inner ∧ b.Inner :=
  List.forall_mem_append

@[simp]
theorem Code.inner_nil : Code.Inner [] := by
  simp [Code.Inner]

/-- **No function begins inside a statement.** -/
theorem Emit.inner_statements {ctx : Context} {code : Code} {l l' : Labels}
    (block : List Statement) (he : statements ctx block l = .ok code l') : code.Inner := by
  intro i hi
  cases ofStatement_statements block he i hi with
  | ofExpr h => cases h <;> rfl
  | label | goto | ifGoto | ret => rfl

end JackCompiler
