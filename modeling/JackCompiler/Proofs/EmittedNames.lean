import JackCompiler.Proofs.Calls
import JackCompiler.Proofs.CodeText
import JackCompiler.Syntax.Spelling
/-!
# The names in emitted code

An instruction in the code of a statement names nothing, a subroutine of the library, the subroutine
that a written call goes to, or a label (`Emit.Named`). A call is written with its names, so these
are among the tokens of the statement.
-/

namespace JackCompiler

/-! ## What instructions name -/

namespace Emit

/-- The calls that are made without being written: products, quotients, strings and objects. -/
def libraryCalls : List Instruction :=
  [.call "Math.multiply" 2, .call "Math.divide" 2, .call "String.new" 1,
    .call "String.appendChar" 2, .call "Memory.alloc" 1]

/-- What labels belong to, with their roles there. -/
def labelRoles : List (String × String) :=
  [("IF", "FALSE"), ("IF", "END"), ("WHILE", "EXP"), ("WHILE", "END")]

/-- The instruction that makes a call when its arguments are on the stack. -/
def callInstruction (ctx : Context) : Call → Instruction
  | .mk none name args => .call (qualified ctx.className name) (UInt16.ofNat args.length + 1)
  | .mk (some r) name args =>
    match ctx.symbols.resolve r with
    | some s => .call (qualified s.type name) (UInt16.ofNat args.length + 1)
    | none => .call (qualified r name) (UInt16.ofNat args.length)

/-- The instruction has no name in it, or the name of a library subroutine, of the subroutine that
one of the calls goes to, or of a label. -/
inductive Named (ctx : Context) (calls : List Call) : Instruction → Prop
  | nameless {i : Instruction} : i.name? = none → Named ctx calls i
  | library {i : Instruction} : i ∈ libraryCalls → Named ctx calls i
  | call {c : Call} : c ∈ calls → Named ctx calls (callInstruction ctx c)
  | label {i : Instruction} {stem role : String} {n : Nat} :
      (stem, role) ∈ labelRoles → i.name? = some (Labels.text stem role n) → Named ctx calls i

variable {ctx : Context} {code : Code} {calls calls' : List Call}

/-- More calls name no less. -/
theorem Named.mono (h : calls ⊆ calls') {i : Instruction} (hi : Named ctx calls i) :
    Named ctx calls' i := by
  cases hi with
  | nameless hi => exact .nameless hi
  | library hi => exact .library hi
  | call hc => exact .call (h hc)
  | label hr hi => exact .label hr hi

/-- More calls name no less, for whole codes. -/
theorem named_mono (h : calls ⊆ calls') (hcode : code.All (Named ctx calls)) :
    code.All (Named ctx calls') :=
  hcode.imp fun _ => Named.mono h

theorem named_append_left {a : Code} (calls' : List Call) (h : a.All (Named ctx calls)) :
    a.All (Named ctx (calls ++ calls')) :=
  named_mono (List.subset_append_left _ _) h

theorem named_append_right {a : Code} (calls : List Call) (h : a.All (Named ctx calls')) :
    a.All (Named ctx (calls ++ calls')) :=
  named_mono (List.subset_append_right _ _) h

@[simp]
theorem named_push (g : Segment) (n : UInt16) : Named ctx calls (.push g n) := .nameless rfl

@[simp]
theorem named_pop (g : Segment) (n : UInt16) : Named ctx calls (.pop g n) := .nameless rfl

@[simp]
theorem named_compute (op : Operation) : Named ctx calls (.compute op) := .nameless rfl

@[simp]
theorem named_ret : Named ctx calls .ret := .nameless rfl

/-- An operator names nothing or a subroutine of the library. -/
theorem named_binary (op : BinaryOp) : Named ctx calls (binary op) := by
  cases op with
  | mul | div => exact .library (by decide)
  | _ => exact .nameless rfl

/-- The code of a string names only subroutines of the library. -/
theorem named_string (s : String) : Code.All (Named ctx calls) (string s) := by
  intro i hi
  simp only [string, List.mem_append, List.mem_cons, List.mem_flatMap, List.not_mem_nil,
    or_false] at hi
  rcases hi with (rfl | rfl) | ⟨c, -, rfl | rfl⟩
  · exact .nameless rfl
  · exact .library (by decide)
  · exact .nameless rfl
  · exact .library (by decide)

/-- A call is made by its last instruction. -/
theorem named_callWith {receiver : Option String} {name : String} {args : List Expr}
    (h : code.All (Named ctx calls)) (hc : .mk receiver name args ∈ calls) :
    Code.All (Named ctx calls) (callWith ctx receiver name code (UInt16.ofNat args.length)) := by
  have hcall : Named ctx calls (callInstruction ctx (.mk receiver name args)) := .call hc
  unfold callWith
  split
  · simpa [h, callInstruction] using hcall
  · next r =>
    cases hr : ctx.symbols.resolve r with
    | some s => simpa [h, pushSymbol, callInstruction, hr] using hcall
    | none => simpa [h, callInstruction, hr] using hcall

mutual

/-- **The code of an expression names what the calls in it go to.** -/
theorem named_expr (e : Expr) {code : Code} (he : expr ctx e = .ok code) :
    code.All (Named ctx (Calls.expr e)) := by
  obtain ⟨head, tail⟩ := e
  obtain ⟨first, hf, rest, hr, rfl⟩ := expr_eq_ok.1 he
  exact Code.all_append.2 ⟨named_append_left _ (named_term head hf),
    named_append_right _ (named_operands tail hr)⟩

/-- In the code of operands, the calls written in them are named. -/
theorem named_operands (tail : List (BinaryOp × Term)) {code : Code}
    (he : operands ctx tail = .ok code) : code.All (Named ctx (Calls.operands tail)) := by
  match tail with
  | [] =>
    obtain rfl := operands_nil_eq_ok.1 he
    exact Code.all_nil
  | (op, t) :: tail =>
    obtain ⟨first, hf, rest, hr, rfl⟩ := operands_cons_eq_ok.1 he
    exact Code.all_append.2 ⟨named_append_left _ (named_term t hf),
      Code.all_cons.2 ⟨named_binary op, named_append_right _ (named_operands tail hr)⟩⟩

/-- In the code of a term, the calls written in it are named. -/
theorem named_term (t : Term) {code : Code} (he : term ctx t = .ok code) :
    code.All (Named ctx (Calls.term t)) := by
  match t with
  | .integer n =>
    obtain rfl := term_integer_eq_ok.1 he
    simp
  | .string s =>
    obtain rfl := term_string_eq_ok.1 he
    exact named_string s
  | .constant c =>
    obtain rfl := term_constant_eq_ok.1 he
    cases c <;> simp [constant]
  | .paren e => exact named_expr e (term_paren_eq_ok.1 he)
  | .unary op t =>
    obtain ⟨inner, hi, rfl⟩ := term_unary_eq_ok.1 he
    have hinner : inner.All (Named ctx (Calls.term (.unary op t))) := named_term t hi
    cases op <;> simp [hinner, unary]
  | .var name =>
    obtain ⟨s, -, rfl⟩ := term_var_eq_ok.1 he
    simp [pushSymbol]
  | .index name e =>
    obtain ⟨s, -, offset, ho, rfl⟩ := term_index_eq_ok.1 he
    have hoffset : offset.All (Named ctx (Calls.term (.index name e))) := named_expr e ho
    simp [pushSymbol, hoffset]
  | .call c => exact named_call c (term_call_eq_ok.1 he)

/-- In the code of a call, that call and those in its arguments are named. -/
theorem named_call (c : Call) {code : Code} (he : call ctx c = .ok code) :
    code.All (Named ctx (Calls.call c)) := by
  obtain ⟨receiver, name, args⟩ := c
  obtain ⟨inner, hi, rfl⟩ := call_eq_ok.1 he
  exact named_callWith (named_append_left _ (named_arguments args hi)) (by simp [Calls.call])

/-- In the code of arguments, the calls written in them are named. -/
theorem named_arguments (args : List Expr) {code : Code} (he : arguments ctx args = .ok code) :
    code.All (Named ctx (Calls.arguments args)) := by
  match args with
  | [] =>
    obtain rfl := arguments_nil_eq_ok.1 he
    exact Code.all_nil
  | e :: es =>
    obtain ⟨first, hf, rest, hr, rfl⟩ := arguments_cons_eq_ok.1 he
    exact Code.all_append.2 ⟨named_append_left _ (named_expr e hf),
      named_append_right _ (named_arguments es hr)⟩

end

/-- In the code of an assignment, the calls in its index and its value are named. -/
theorem named_assign {name : String} {index : Option Expr} {value : Expr}
    (he : assign ctx name index value = .ok code) :
    code.All (Named ctx (Calls.statement (.assign name index value))) := by
  cases index with
  | none =>
    obtain ⟨s, -, inner, hi, rfl⟩ := assign_none_eq_ok.1 he
    have hinner : inner.All (Named ctx (Calls.statement (.assign name none value))) :=
      named_expr value hi
    simp [hinner, popSymbol]
  | some index =>
    obtain ⟨s, -, offset, ho, inner, hi, rfl⟩ := assign_some_eq_ok.1 he
    have hoffset : offset.All (Named ctx (Calls.statement (.assign name (some index) value))) :=
      named_append_left _ (named_expr index ho)
    have hinner : inner.All (Named ctx (Calls.statement (.assign name (some index) value))) :=
      named_append_right _ (named_expr value hi)
    simp [hoffset, hinner, pushSymbol]

/-- In the code of a `return`, the calls in its value are named. -/
theorem named_leave {value : Option Expr} (he : leave ctx value = .ok code) :
    code.All (Named ctx (Calls.statement (.leave value))) := by
  have htail : ∀ calls, (leaveTail ctx).All (Named ctx calls) := by
    intro calls
    unfold leaveTail
    split <;> simp
  cases value with
  | none =>
    obtain rfl := leave_none_eq_ok.1 he
    exact htail _
  | some e =>
    obtain ⟨inner, hi, rfl⟩ := leave_some_eq_ok.1 he
    exact Code.all_append.2 ⟨named_expr e hi, htail _⟩

/-- A label with one of the roles may be set and jumped to. -/
theorem named_role (ctx : Context) (calls : List Call) (stem role : String)
    (h : (stem, role) ∈ labelRoles) (n : Nat) :
    Named ctx calls (.label (Labels.text stem role n)) ∧
      Named ctx calls (.goto (Labels.text stem role n)) ∧
      Named ctx calls (.ifGoto (Labels.text stem role n)) :=
  ⟨.label h rfl, .label h rfl, .label h rfl⟩

/-- A branch adds its two labels to the names in its parts. -/
theorem named_branchCode {n : Nat} {test first second : Code} (ht : test.All (Named ctx calls))
    (hf : first.All (Named ctx calls)) (hs : second.All (Named ctx calls)) :
    (branchCode n test first second).All (Named ctx calls) := by
  have hfalse := named_role ctx calls "IF" "FALSE" (by decide) n
  have hend := named_role ctx calls "IF" "END" (by decide) n
  simp [branchCode, ht, hf, hs, hfalse, hend]

/-- A loop adds its two labels to the names in its parts. -/
theorem named_loopCode {n : Nat} {test inner : Code} (ht : test.All (Named ctx calls))
    (hi : inner.All (Named ctx calls)) : (loopCode n test inner).All (Named ctx calls) := by
  have htest := named_role ctx calls "WHILE" "EXP" (by decide) n
  have hend := named_role ctx calls "WHILE" "END" (by decide) n
  simp [loopCode, ht, hi, htest, hend]

mutual

/-- **The code of a statement names what the calls in it go to, and labels.** -/
theorem named_statement (s : Statement) {code : Code} {l l' : Labels}
    (he : statement ctx s l = .ok code l') : code.All (Named ctx (Calls.statement s)) := by
  match s with
  | .assign name index value => exact named_assign (statement_assign_eq_ok.1 he).1
  | .branch condition yes no =>
    obtain ⟨test, ht, first, l₁, hf, second, hs, rfl⟩ := statement_branch_eq_ok.1 he
    have hsecond : second.All (Named ctx (Calls.statements (no.getD []))) := by
      match no, hs with
      | none, hs =>
        obtain ⟨rfl, -⟩ := statements_nil_eq_ok.1 hs
        exact Code.all_nil
      | some block, hs => exact named_statements block hs
    rw [Calls.statement_branch]
    exact named_branchCode (named_append_left _ (named_expr condition ht))
      (named_append_right _ (named_append_left _ (named_statements yes hf)))
      (named_append_right _ (named_append_right _ hsecond))
  | .loop condition body =>
    obtain ⟨test, ht, inner, hi, rfl⟩ := statement_loop_eq_ok.1 he
    exact named_loopCode (named_append_left _ (named_expr condition ht))
      (named_append_right _ (named_statements body hi))
  | .perform c =>
    obtain ⟨⟨inner, hi, rfl⟩, -⟩ := statement_perform_eq_ok.1 he
    have hinner : inner.All (Named ctx (Calls.statement (.perform c))) := named_call c hi
    simp [hinner]
  | .leave value => exact named_leave (statement_leave_eq_ok.1 he).1

/-- In the code of a block, the calls written in its statements are named. -/
theorem named_statements (block : List Statement) {code : Code} {l l' : Labels}
    (he : statements ctx block l = .ok code l') :
    code.All (Named ctx (Calls.statements block)) := by
  match block with
  | [] =>
    obtain ⟨rfl, -⟩ := statements_nil_eq_ok.1 he
    exact Code.all_nil
  | s :: block =>
    obtain ⟨first, l₁, hf, others, ho, rfl⟩ := statements_cons_eq_ok.1 he
    exact Code.all_append.2 ⟨named_append_left _ (named_statement s hf),
      named_append_right _ (named_statements block ho)⟩

end

end Emit

/-! ## Written calls are spelled -/

/-- Nothing is lost between commas. -/
theorem subset_commaSeparated {ks : List Token.Kind} {kss : List (List Token.Kind)}
    (h : ks ∈ kss) : ks ⊆ commaSeparated kss := by
  induction kss with
  | nil => cases h
  | cons first kss ih =>
    cases kss with
    | nil =>
      obtain rfl := List.mem_singleton.1 h
      simp [commaSeparated]
    | cons second kss =>
      rw [commaSeparated, List.intercalate_cons_cons]
      rcases List.mem_cons.1 h with rfl | h
      · exact List.subset_append_of_subset_left _ (List.subset_append_left _ _)
      · exact List.subset_append_of_subset_right _ (ih h)

namespace Calls

mutual

/-- **The tokens of a call are among those of the expression in which it is written.** -/
theorem spelling_expr (e : Expr) : ∀ c ∈ expr e, Spelling.call c ⊆ Spelling.expr e := by
  obtain ⟨head, tail⟩ := e
  refine List.forall_mem_append.2 ⟨fun c hc => ?_, fun c hc => ?_⟩
  · exact List.subset_append_of_subset_left _ (spelling_term head c hc)
  · exact List.subset_append_of_subset_right _ (spelling_operands tail c hc)

/-- A call in operands is spelled with tokens of theirs. -/
theorem spelling_operands (tail : List (BinaryOp × Term)) :
    ∀ c ∈ operands tail, Spelling.call c ⊆ Spelling.operands tail := by
  match tail with
  | [] => exact List.forall_mem_nil _
  | (op, t) :: tail =>
    refine List.forall_mem_append.2 ⟨fun c hc => ?_, fun c hc => ?_⟩
    · exact List.subset_cons_of_subset _
        (List.subset_append_of_subset_left _ (spelling_term t c hc))
    · exact List.subset_cons_of_subset _
        (List.subset_append_of_subset_right _ (spelling_operands tail c hc))

/-- A call in a term is spelled with tokens of the term. -/
theorem spelling_term (t : Term) : ∀ c ∈ term t, Spelling.call c ⊆ Spelling.term t := by
  match t with
  | .integer _ | .string _ | .constant _ | .var _ => exact List.forall_mem_nil _
  | .paren e =>
    exact fun c hc => List.subset_cons_of_subset _
      (List.subset_append_of_subset_left _ (spelling_expr e c hc))
  | .unary op t => exact fun c hc => List.subset_cons_of_subset _ (spelling_term t c hc)
  | .index name e =>
    exact fun c hc => List.subset_cons_of_subset _ (List.subset_cons_of_subset _
      (List.subset_append_of_subset_left _ (spelling_expr e c hc)))
  | .call c => exact spelling_call c

/-- A call in the arguments of a call is spelled with tokens of that call. -/
theorem spelling_call (c : Call) : ∀ c' ∈ call c, Spelling.call c' ⊆ Spelling.call c := by
  obtain ⟨receiver, name, args⟩ := c
  refine List.forall_mem_append.2 ⟨fun c hc => ?_, ?_⟩
  · obtain ⟨ks, hks, hc⟩ := spelling_arguments args c hc
    refine List.subset_append_of_subset_right _ (List.subset_cons_of_subset _ ?_)
    exact List.subset_append_of_subset_left _
      (List.Subset.trans hc (subset_commaSeparated hks))
  · simp

/-- A call in arguments is spelled with tokens of one of them. -/
theorem spelling_arguments (args : List Expr) :
    ∀ c ∈ arguments args, ∃ ks ∈ Spelling.arguments args, Spelling.call c ⊆ ks := by
  match args with
  | [] => exact List.forall_mem_nil _
  | e :: es =>
    refine List.forall_mem_append.2 ⟨fun c hc => ?_, fun c hc => ?_⟩
    · exact ⟨Spelling.expr e, List.mem_cons_self, spelling_expr e c hc⟩
    · obtain ⟨ks, hks, hc⟩ := spelling_arguments es c hc
      exact ⟨ks, List.mem_cons_of_mem _ hks, hc⟩

end

mutual

/-- **A call in a statement is spelled with tokens of the statement.** -/
theorem spelling_statement (s : Statement) :
    ∀ c ∈ statement s, Spelling.call c ⊆ Spelling.statement s := by
  match s with
  | .assign name index value =>
    refine List.forall_mem_append.2 ⟨fun c hc => ?_, fun c hc => ?_⟩
    · match index with
      | none => cases hc
      | some index =>
        intro k hk
        have hindex := spelling_expr index c hc hk
        simp [Spelling.statement, hindex]
    · intro k hk
      have hvalue := spelling_expr value c hc hk
      simp [Spelling.statement, hvalue]
  | .branch condition yes none =>
    refine List.forall_mem_append.2 ⟨fun c hc k hk => ?_, fun c hc k hk => ?_⟩
    · have hcondition := spelling_expr condition c hc hk
      simp [Spelling.statement, hcondition]
    · rw [List.append_nil] at hc
      have hyes := spelling_statements yes c hc hk
      simp [Spelling.statement, hyes]
  | .branch condition yes (some block) =>
    refine List.forall_mem_append.2 ⟨fun c hc k hk => ?_,
      List.forall_mem_append.2 ⟨fun c hc k hk => ?_, fun c hc k hk => ?_⟩⟩
    · have hcondition := spelling_expr condition c hc hk
      simp [Spelling.statement, hcondition]
    · have hyes := spelling_statements yes c hc hk
      simp [Spelling.statement, hyes]
    · have hblock := spelling_statements block c hc hk
      simp [Spelling.statement, hblock]
  | .loop condition body =>
    refine List.forall_mem_append.2 ⟨fun c hc k hk => ?_, fun c hc k hk => ?_⟩
    · have hcondition := spelling_expr condition c hc hk
      simp [Spelling.statement, hcondition]
    · have hbody := spelling_statements body c hc hk
      simp [Spelling.statement, hbody]
  | .perform call =>
    exact fun c hc => List.subset_cons_of_subset _
      (List.subset_append_of_subset_left _ (spelling_call call c hc))
  | .leave value =>
    match value with
    | none => exact List.forall_mem_nil _
    | some e =>
      exact fun c hc => List.subset_cons_of_subset _
        (List.subset_append_of_subset_left _ (spelling_expr e c hc))

/-- A call in a block is spelled with tokens of the block. -/
theorem spelling_statements (block : List Statement) :
    ∀ c ∈ statements block, Spelling.call c ⊆ Spelling.statements block := by
  match block with
  | [] => exact List.forall_mem_nil _
  | s :: block =>
    refine List.forall_mem_append.2 ⟨fun c hc => ?_, fun c hc => ?_⟩
    · exact List.subset_append_of_subset_left _ (spelling_statement s c hc)
    · exact List.subset_append_of_subset_right _ (spelling_statements block c hc)

end

end Calls

end JackCompiler
