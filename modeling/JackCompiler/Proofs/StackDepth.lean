import JackCompiler.Proofs.SubroutineCode
/-!
# How deep the stack is

At every point of a function the operand stack has one depth, whichever way the run has come there:
the depths can be written beside the code and checked instruction by instruction
(`Code.DepthsAgree`). Between two statements the stack is empty, so it is empty at every label and
there is nothing to compare where two ways meet; an expression leaves one word more than it finds,
whatever waits below it. These two facts are one relation between the depths before and behind a
piece of code (`Code.Leads`), which is put together as the code is.
-/

namespace JackCompiler

/-! ## Depths beside the code -/

/-- How many operands an operation takes. -/
def Operation.arity : Operation → Nat
  | neg => 1
  | not => 1
  | _ => 2

namespace Instruction

/-- How many operands the instruction takes off the stack. What a `return` finds there goes with the
function. -/
def takes : Instruction → Nat
  | pop .. => 1
  | compute op => op.arity
  | ifGoto _ => 1
  | call _ n => n.toNat
  | _ => 0

/-- How many words the instruction puts on the stack. -/
def puts : Instruction → Nat
  | push .. => 1
  | compute _ => 1
  | call .. => 1
  | _ => 0

end Instruction

namespace Code

/-- Can the run of the function come from the instruction at point `i` to point `j`? -/
def Successor (code : Code) (i j : Nat) : Prop :=
  match code[i]? with
  | some (.goto name) => code[j]? = some (.label name)
  | some (.ifGoto name) => j = i + 1 ∨ code[j]? = some (.label name)
  | some .ret => False
  | some _ => j = i + 1
  | none => False

/-- The depths belong to the points of the function: it begins and ends with an empty stack, every
instruction finds its operands, and wherever the run goes on, the depth is the one that the
instruction leaves. -/
structure DepthsAgree (code : Code) (depth : Nat → Nat) : Prop where
  start : depth 0 = 0
  finish : depth code.length = 0
  label : ∀ i name, code[i]? = some (.label name) → depth i = 0
  operands : ∀ i instr, code[i]? = some instr → instr.takes ≤ depth i
  successor : ∀ i j instr, code[i]? = some instr → code.Successor i j →
    depth j = depth i - instr.takes + instr.puts

/-- The points at which the code returns, in order. -/
def returnPoints (code : Code) : List Nat :=
  (List.range code.length).filter fun i => code[i]? = some .ret

/-! ## The depths before and behind a piece of code -/

/-- A run that comes to the code with a stack of depth `d` leaves it with depth `d'`. Inside it
every instruction finds its operands, labels are marked and jumps made with an empty stack, and the
`return`s find the given depths, in order. Behind an instruction that does not go on to the next,
the stack counts as empty. -/
inductive Leads : Nat → Code → List Nat → Nat → Prop
  | nil (d : Nat) : Leads d [] [] d
  | plain {d d' : Nat} {i : Instruction} {code : Code} {returns : List Nat} (hi : i.isPlain)
      (h : Leads (d + i.puts) code returns d') : Leads (d + i.takes) (i :: code) returns d'
  | label {d' : Nat} {name : String} {code : Code} {returns : List Nat}
      (h : Leads 0 code returns d') : Leads 0 (.label name :: code) returns d'
  | goto {d' : Nat} {name : String} {code : Code} {returns : List Nat}
      (h : Leads 0 code returns d') : Leads 0 (.goto name :: code) returns d'
  | ifGoto {d' : Nat} {name : String} {code : Code} {returns : List Nat}
      (h : Leads 0 code returns d') : Leads 1 (.ifGoto name :: code) returns d'
  | function {d' : Nat} {name : String} {n : UInt16} {code : Code} {returns : List Nat}
      (h : Leads 0 code returns d') : Leads 0 (.function name n :: code) returns d'
  | ret {d' : Nat} {code : Code} {returns : List Nat} (d : Nat)
      (h : Leads 0 code returns d') : Leads d (.ret :: code) (d :: returns) d'

namespace Leads

variable {d d₁ d' : Nat} {a b code : Code} {returns returns' : List Nat}

/-- Codes lead on from one to the other. -/
theorem append (ha : Leads d a returns d₁) (hb : Leads d₁ b returns' d') :
    Leads d (a ++ b) (returns ++ returns') d' := by
  induction ha with
  | nil => exact hb
  | plain hi _ ih => exact .plain hi (ih hb)
  | label _ ih => exact .label (ih hb)
  | goto _ ih => exact .goto (ih hb)
  | ifGoto _ ih => exact .ifGoto (ih hb)
  | function _ ih => exact .function (ih hb)
  | ret d _ ih => exact .ret d (ih hb)

theorem push {segment : Segment} {n : UInt16} (h : Leads (d + 1) code returns d') :
    Leads d (.push segment n :: code) returns d' :=
  plain (d := d) (i := .push segment n) rfl h

theorem pop {segment : Segment} {n : UInt16} (h : Leads d code returns d') :
    Leads (d + 1) (.pop segment n :: code) returns d' :=
  plain (d := d) (i := .pop segment n) rfl h

/-- An operation takes its operands off the stack and puts its result there. -/
theorem compute (op : Operation) (h : Leads (d + 1) code returns d') :
    Leads (d + op.arity) (.compute op :: code) returns d' :=
  plain (d := d) (i := .compute op) rfl h

/-- A call takes its arguments off the stack and puts its result there. -/
theorem call {name : String} {n : UInt16} {k : Nat} (hn : n.toNat = k)
    (h : Leads (d + 1) code returns d') : Leads (d + k) (.call name n :: code) returns d' := by
  subst hn
  exact plain (d := d) (i := .call name n) rfl h

end Leads

/-! ## From pieces to points -/

/-- The returns of a code are counted from its first instruction. -/
theorem returnPoints_cons (i : Instruction) (code : Code) :
    returnPoints (i :: code)
      = (if i = .ret then [0] else []) ++ (returnPoints code).map (· + 1) := by
  unfold returnPoints
  rw [List.length_cons, List.range_succ_eq_map, List.filter_cons, List.filter_map]
  split <;> simp_all [Function.comp_def]

/-- The instruction can stand between two points with these depths, if all labels have depth
zero. -/
def Allows (before after : Nat) : Instruction → Prop
  | .label _ => before = 0 ∧ after = 0
  | .goto _ => before = 0
  | .ifGoto _ => before = 1 ∧ after = 0
  | .ret => True
  | i => i.takes ≤ before ∧ after = before - i.takes + i.puts

/-- The depths at the points of a piece of code, from `d` before it to `d'` behind it. -/
structure Annotated (d : Nat) (code : Code) (returns : List Nat) (d' : Nat) (depth : Nat → Nat) :
    Prop where
  start : depth 0 = d
  finish : depth code.length = d'
  returns_eq : code.returnPoints.map depth = returns
  allows : ∀ i instr, code[i]? = some instr → Allows (depth i) (depth (i + 1)) instr

/-- One more instruction at the front moves the points by one. -/
theorem Annotated.cons {d d₁ d' : Nat} {code : Code} {returns : List Nat} {depth : Nat → Nat}
    (h : Annotated d₁ code returns d' depth) (instr : Instruction) (hi : Allows d d₁ instr) :
    ∃ depth', Annotated d (instr :: code) ((if instr = .ret then [d] else []) ++ returns) d'
      depth' := by
  refine ⟨fun | 0 => d | i + 1 => depth i, rfl, h.finish, ?_, ?_⟩
  · rw [returnPoints_cons, List.map_append, List.map_map, ← h.returns_eq]
    split <;> rfl
  · intro i instr' hinstr
    cases i with
    | zero =>
      obtain rfl : instr = instr' := Option.some.inj hinstr
      rw [← h.start] at hi
      exact hi
    | succ i => exact h.allows i instr' hinstr

/-- **Depths can be written beside the code.** -/
theorem Leads.exists_annotated {d d' : Nat} {code : Code} {returns : List Nat}
    (h : Leads d code returns d') : ∃ depth, Annotated d code returns d' depth := by
  induction h with
  | nil d => exact ⟨fun _ => d, rfl, rfl, rfl, by simp⟩
  | @plain d d' i code returns hi _ ih =>
    obtain ⟨depth, h⟩ := ih
    have hallows : Allows (d + i.takes) (d + i.puts) i := by
      cases i with
      | push | pop | compute | call => exact ⟨Nat.le_add_left _ _, by omega⟩
      | _ => cases hi
    have hret : i ≠ .ret := by
      rintro rfl
      cases hi
    obtain ⟨depth', h'⟩ := h.cons i hallows
    rw [if_neg hret] at h'
    exact ⟨depth', h'⟩
  | label _ ih =>
    obtain ⟨depth, h⟩ := ih
    exact h.cons (.label _) ⟨rfl, rfl⟩
  | goto _ ih =>
    obtain ⟨depth, h⟩ := ih
    exact h.cons (.goto _) rfl
  | ifGoto _ ih =>
    obtain ⟨depth, h⟩ := ih
    exact h.cons (.ifGoto _) ⟨rfl, rfl⟩
  | function _ ih =>
    obtain ⟨depth, h⟩ := ih
    exact h.cons (.function _ _) ⟨Nat.le_refl 0, rfl⟩
  | ret d _ ih =>
    obtain ⟨depth, h⟩ := ih
    exact h.cons .ret trivial

/-- Code that leads from an empty stack to one has a depth at each of its instructions. -/
theorem depthsAgree_of_leads {code : Code} {returns : List Nat} (h : Leads 0 code returns 0) :
    ∃ depth, code.DepthsAgree depth ∧ code.returnPoints.map depth = returns := by
  obtain ⟨depth, hstart, hfinish, hreturns, hallows⟩ := h.exists_annotated
  have hlabel : ∀ i name, code[i]? = some (.label name) → depth i = 0 :=
    fun i name hi => (hallows i _ hi).1
  refine ⟨depth, ⟨hstart, hfinish, hlabel, ?_, ?_⟩, hreturns⟩
  · intro i instr hi
    have h := hallows i instr hi
    cases instr with
    | label | goto | ret => exact Nat.zero_le _
    | ifGoto name => exact Nat.le_of_eq h.1.symm
    | _ => exact h.1
  · intro i j instr hi hj
    have h := hallows i instr hi
    rw [Successor, hi] at hj
    cases instr with
    | goto name =>
      rw [hlabel j name hj, show depth i = 0 from h]
      rfl
    | ifGoto name =>
      obtain ⟨hbefore, hafter⟩ := h
      rw [hbefore]
      rcases hj with rfl | hj
      · exact hafter
      · exact hlabel j name hj
    | ret => exact absurd hj id
    | label name =>
      obtain rfl : j = i + 1 := hj
      rw [h.1, h.2]
      rfl
    | _ =>
      obtain rfl : j = i + 1 := hj
      exact h.2

end Code

/-! ## Expressions -/

namespace Emit

open Code (Leads)

variable {ctx : Context} {code : Code}

/-- An operator makes one word of two, also where it is worked by a call. -/
theorem leads_binary {d d' : Nat} {returns : List Nat} (op : BinaryOp)
    (h : Leads (d + 1) code returns d') : Leads (d + 2) (binary op :: code) returns d' := by
  have htakes : (binary op).takes = 2 ∧ (binary op).puts = 1 ∧ (binary op).isPlain := by
    cases op <;> exact ⟨rfl, rfl, rfl⟩
  obtain ⟨htakes, hputs, hplain⟩ := htakes
  rw [← hputs] at h
  rw [← htakes]
  exact .plain hplain h

theorem leads_unary {d d' : Nat} {returns : List Nat} (op : UnaryOp)
    (h : Leads (d + 1) code returns d') : Leads (d + 1) (unary op :: code) returns d' := by
  cases op with
  | neg => exact .compute (d := d) .neg h
  | not => exact .compute (d := d) .not h

theorem leads_constant (c : NamedConstant) (d : Nat) : Leads d (constant c) [] (d + 1) := by
  cases c with
  | true => exact .push (.compute (d := d) .neg (.nil _))
  | false => exact .push (.nil _)
  | null => exact .push (.nil _)
  | this => exact .push (.nil _)

/-- Each character goes into the string on top of the stack. -/
theorem leads_characters (cs : List Char) (d : Nat) :
    Leads (d + 1) (cs.flatMap fun c =>
      [.push .constant (UInt16.ofNat c.toNat), .call "String.appendChar" 2]) [] (d + 1) := by
  induction cs with
  | nil => exact .nil _
  | cons c cs ih => exact .push (.call (d := d) (k := 2) rfl ih)

/-- A string adds one word to the stack. -/
theorem leads_string (s : String) (d : Nat) : Leads d (string s) [] (d + 1) := by
  exact .push (.call (d := d) (k := 1) rfl (leads_characters s.toList d))

/-- A call makes one word of its object and its arguments. -/
theorem leads_callWith {receiver : Option String} {name : String} {n : Nat} (hn : n < 65535)
    (hargs : ∀ d, Leads d code [] (d + n)) (d : Nat) :
    Leads d (callWith ctx receiver name code (UInt16.ofNat n)) [] (d + 1) := by
  have hcount : (UInt16.ofNat n).toNat = n := by
    rw [UInt16.toNat_ofNat']
    exact Nat.mod_eq_of_lt (by omega)
  have hobject : ∀ (segment : Segment) (i : UInt16) (callee : String),
      Leads d (.push segment i :: (code ++ [.call callee (UInt16.ofNat n + 1)])) [] (d + 1) := by
    intro segment i callee
    have hcall : Leads (d + (n + 1)) [.call callee (UInt16.ofNat n + 1)] [] (d + 1) :=
      .call (Machine.toNat_ofNat_add_one hn) (.nil _)
    have hafter := hargs (d + 1)
    rw [show d + 1 + n = d + (n + 1) by omega] at hafter
    exact .push (hafter.append hcall)
  unfold callWith
  split
  · exact hobject _ _ _
  · split
    · exact hobject _ _ _
    · exact (hargs d).append (.call hcount (.nil _))

mutual

/-- **The code of an expression leaves one word more.** -/
theorem leads_expr (e : Expr) {code : Code} (he : expr ctx e = .ok code)
    (hfit : Calls.Fit (Calls.expr e)) (d : Nat) : Leads d code [] (d + 1) := by
  obtain ⟨head, tail⟩ := e
  obtain ⟨first, hf, rest, hr, rfl⟩ := expr_eq_ok.1 he
  rw [Calls.expr, Calls.fit_append] at hfit
  exact (leads_term head hf hfit.1 d).append (leads_operands tail hr hfit.2 d)

/-- Operands turn the word on the stack into another. -/
theorem leads_operands (tail : List (BinaryOp × Term)) {code : Code}
    (he : operands ctx tail = .ok code) (hfit : Calls.Fit (Calls.operands tail)) (d : Nat) :
    Leads (d + 1) code [] (d + 1) := by
  match tail with
  | [] =>
    obtain rfl := operands_nil_eq_ok.1 he
    exact .nil _
  | (op, t) :: tail =>
    obtain ⟨first, hf, rest, hr, rfl⟩ := operands_cons_eq_ok.1 he
    rw [Calls.operands, Calls.fit_append] at hfit
    exact (leads_term t hf hfit.1 (d + 1)).append
      (leads_binary op (leads_operands tail hr hfit.2 d))

/-- A term adds one word to the stack. -/
theorem leads_term (t : Term) {code : Code} (he : term ctx t = .ok code)
    (hfit : Calls.Fit (Calls.term t)) (d : Nat) : Leads d code [] (d + 1) := by
  match t with
  | .integer n =>
    obtain rfl := term_integer_eq_ok.1 he
    exact .push (.nil _)
  | .string s =>
    obtain rfl := term_string_eq_ok.1 he
    exact leads_string s d
  | .constant c =>
    obtain rfl := term_constant_eq_ok.1 he
    exact leads_constant c d
  | .paren e => exact leads_expr e (term_paren_eq_ok.1 he) hfit d
  | .unary op t =>
    obtain ⟨inner, hi, rfl⟩ := term_unary_eq_ok.1 he
    exact (leads_term t hi hfit d).append (leads_unary op (.nil _))
  | .var name =>
    obtain ⟨s, -, rfl⟩ := term_var_eq_ok.1 he
    exact .push (.nil _)
  | .index name e =>
    obtain ⟨s, -, offset, ho, rfl⟩ := term_index_eq_ok.1 he
    have hread : Leads (d + 2) [.compute .add, .pop .pointer 1, .push .that 0] [] (d + 1) :=
      .compute (d := d) .add (.pop (.push (.nil _)))
    exact .push ((leads_expr e ho hfit (d + 1)).append hread)
  | .call c => exact leads_call c (term_call_eq_ok.1 he) hfit d

/-- A call adds one word to the stack. -/
theorem leads_call (c : Call) {code : Code} (he : call ctx c = .ok code)
    (hfit : Calls.Fit (Calls.call c)) (d : Nat) : Leads d code [] (d + 1) := by
  obtain ⟨receiver, name, args⟩ := c
  obtain ⟨inner, hi, rfl⟩ := call_eq_ok.1 he
  rw [Calls.call, Calls.fit_append] at hfit
  exact leads_callWith (hfit.2 _ (List.mem_singleton_self _))
    (fun d => leads_arguments args hi hfit.1 d) d

/-- The arguments of a call stand on the stack one above the other. -/
theorem leads_arguments (es : List Expr) {code : Code} (he : arguments ctx es = .ok code)
    (hfit : Calls.Fit (Calls.arguments es)) (d : Nat) : Leads d code [] (d + es.length) := by
  match es with
  | [] =>
    obtain rfl := arguments_nil_eq_ok.1 he
    exact .nil _
  | e :: es =>
    obtain ⟨first, hf, rest, hr, rfl⟩ := arguments_cons_eq_ok.1 he
    rw [Calls.arguments, Calls.fit_append] at hfit
    have hrest := leads_arguments es hr hfit.2 (d + 1)
    rw [show d + 1 + es.length = d + (e :: es).length by rw [List.length_cons]; omega] at hrest
    exact (leads_expr e hf hfit.1 d).append hrest

end

end Emit

/-! ## Statements -/

namespace ReturnValues

mutual

/-- The values of the `return`s in a statement, in the order of the text. -/
def statement : Statement → List (Option Expr)
  | .branch _ yes no =>
    let other := match no with
      | some block => statements block
      | none => []
    statements yes ++ other
  | .loop _ body => statements body
  | .leave value => [value]
  | _ => []

/-- The values of the `return`s in a block, in the order of the text. -/
def statements : List Statement → List (Option Expr)
  | [] => []
  | s :: rest => statement s ++ statements rest

end

/-- A missing second block of a branch returns nothing, like an empty one. -/
theorem statement_branch (condition : Expr) (yes : List Statement) (no : Option (List Statement)) :
    statement (.branch condition yes no) = statements yes ++ statements (no.getD []) := by
  cases no <;> simp [statement, statements]

/-- How many words a `return` finds on the stack: its value, if it has one, and the zero that a
subroutine without a result leaves. -/
def depth (isVoid : Bool) (value : Option Expr) : Nat :=
  (if value.isSome then 1 else 0) + (if isVoid then 1 else 0)

end ReturnValues

namespace Emit

open Code (Leads)

variable {ctx : Context} {code : Code}

/-- An assignment leaves the stack empty. -/
theorem leads_assign {name : String} {index : Option Expr} {value : Expr}
    (he : assign ctx name index value = .ok code)
    (hfit : Calls.Fit (Calls.optional index ++ Calls.expr value)) : Leads 0 code [] 0 := by
  rw [Calls.fit_append] at hfit
  cases index with
  | none =>
    obtain ⟨s, -, inner, hi, rfl⟩ := assign_none_eq_ok.1 he
    exact (leads_expr value hi hfit.2 0).append (.pop (.nil 0))
  | some index =>
    obtain ⟨s, -, offset, ho, inner, hi, rfl⟩ := assign_some_eq_ok.1 he
    -- the address waits below the value
    have hstore : Leads 2 [.pop .temp 0, .pop .pointer 1, .push .temp 0, .pop .that 0] [] 0 :=
      .pop (.pop (.push (.pop (.nil 0))))
    have hvalue := (leads_expr value hi hfit.2 1).append hstore
    exact .push ((leads_expr index ho hfit.1 1).append (.compute (d := 0) .add hvalue))

/-- A `return` finds the depth that its value asks for. -/
theorem leads_leave {value : Option Expr} (he : leave ctx value = .ok code)
    (hfit : Calls.Fit (Calls.optional value)) :
    Leads 0 code [ReturnValues.depth ctx.isVoid value] 0 := by
  have htail : ∀ d, Leads d (leaveTail ctx) [d + if ctx.isVoid then 1 else 0] 0 := by
    intro d
    unfold leaveTail
    split
    · exact .push (.ret (d + 1) (.nil 0))
    · exact .ret d (.nil 0)
  cases value with
  | none =>
    obtain rfl := leave_none_eq_ok.1 he
    exact htail 0
  | some e =>
    obtain ⟨inner, hi, rfl⟩ := leave_some_eq_ok.1 he
    exact (leads_expr e hi hfit 0).append (htail 1)

/-- A condition is taken off the stack again. -/
theorem leads_test {test : Code} {name : String} {returns : List Nat}
    (ht : ∀ d, Leads d test [] (d + 1)) (h : Leads 0 code returns 0) :
    Leads 0 (test ++ .compute .not :: .ifGoto name :: code) returns 0 :=
  (ht 0).append (.compute (d := 0) .not (.ifGoto h))

/-- A branch leaves the stack empty if its blocks do, and has their returns. -/
theorem leads_branchCode {n : Nat} {test first second : Code} {returns returns' : List Nat}
    (ht : ∀ d, Leads d test [] (d + 1)) (hf : Leads 0 first returns 0)
    (hs : Leads 0 second returns' 0) :
    Leads 0 (branchCode n test first second) (returns ++ returns') 0 := by
  have hend : Leads 0 (second ++ [.label (Labels.text "IF" "END" n)]) (returns' ++ []) 0 :=
    hs.append (.label (.nil 0))
  rw [List.append_nil] at hend
  exact leads_test ht (hf.append (.goto (.label hend)))

/-- A loop leaves the stack empty if its body does, and has its returns. -/
theorem leads_loopCode {n : Nat} {test inner : Code} {returns : List Nat}
    (ht : ∀ d, Leads d test [] (d + 1)) (hi : Leads 0 inner returns 0) :
    Leads 0 (loopCode n test inner) returns 0 := by
  have hend : Leads 0 (inner ++ [.goto (Labels.text "WHILE" "EXP" n),
      .label (Labels.text "WHILE" "END" n)]) (returns ++ []) 0 :=
    hi.append (.goto (.label (.nil 0)))
  rw [List.append_nil] at hend
  exact .label (leads_test ht hend)

mutual

/-- **The code of a statement leaves the stack empty**, and each `return` in it finds its value. -/
theorem leads_statement (s : Statement) {code : Code} {l l' : Labels}
    (he : statement ctx s l = .ok code l') (hfit : Calls.Fit (Calls.statement s)) :
    Leads 0 code ((ReturnValues.statement s).map (ReturnValues.depth ctx.isVoid)) 0 := by
  match s with
  | .assign name index value => exact leads_assign (statement_assign_eq_ok.1 he).1 hfit
  | .branch condition yes no =>
    obtain ⟨test, ht, first, l₁, hf, second, hs, rfl⟩ := statement_branch_eq_ok.1 he
    obtain ⟨hcondition, hyes, hno⟩ := Calls.fit_branch.1 hfit
    have hfirst := leads_statements yes hf hyes
    have hsecond : Leads 0 second
        ((ReturnValues.statements (no.getD [])).map (ReturnValues.depth ctx.isVoid)) 0 := by
      match no, hs with
      | none, hs =>
        obtain ⟨rfl, -⟩ := statements_nil_eq_ok.1 hs
        exact .nil 0
      | some block, hs => exact leads_statements block hs hno
    rw [ReturnValues.statement_branch, List.map_append]
    exact leads_branchCode (leads_expr condition ht hcondition) hfirst hsecond
  | .loop condition body =>
    obtain ⟨test, ht, inner, hi, rfl⟩ := statement_loop_eq_ok.1 he
    rw [Calls.statement, Calls.fit_append] at hfit
    exact leads_loopCode (leads_expr condition ht hfit.1) (leads_statements body hi hfit.2)
  | .perform c =>
    obtain ⟨⟨inner, hi, rfl⟩, -⟩ := statement_perform_eq_ok.1 he
    exact (leads_call c hi hfit 0).append (.pop (.nil 0))
  | .leave value => exact leads_leave (statement_leave_eq_ok.1 he).1 hfit

/-- **A block leaves the stack empty**, and each of its returns finds what its value asks for. -/
theorem leads_statements (block : List Statement) {code : Code} {l l' : Labels}
    (he : statements ctx block l = .ok code l') (hfit : Calls.Fit (Calls.statements block)) :
    Leads 0 code ((ReturnValues.statements block).map (ReturnValues.depth ctx.isVoid)) 0 := by
  match block with
  | [] =>
    obtain ⟨rfl, -⟩ := statements_nil_eq_ok.1 he
    exact .nil 0
  | s :: block =>
    obtain ⟨first, l₁, hf, others, ho, rfl⟩ := statements_cons_eq_ok.1 he
    rw [Calls.statements, Calls.fit_append] at hfit
    rw [ReturnValues.statements, List.map_append]
    exact (leads_statement s hf hfit.1).append (leads_statements block ho hfit.2)

end

/-- The stack is empty before the statements of a subroutine. -/
theorem leads_prologue (t : SymbolTable) (kind : SubroutineKind) :
    Leads 0 (prologue t kind) [] 0 := by
  cases kind with
  | constructor => exact .push (.call (d := 0) (k := 1) rfl (.pop (.nil 0)))
  | method => exact .push (.pop (.nil 0))
  | function => exact .nil 0

end Emit

/-- There are depths for the points of the subroutine's code, and each `return` in it finds what the
one in the source is to leave. -/
def BalancesStack (sub : Subroutine) (body : Code) : Prop :=
  ∃ depth : Nat → Nat, body.DepthsAgree depth ∧
    body.returnPoints.map depth
      = (ReturnValues.statements sub.body).map (ReturnValues.depth sub.result.isNone)

/-- **Emitted code passes a stack verifier.** -/
theorem Class.emit_balancesStack {c : Class} {code : Code} {labels labels' : Labels}
    (he : c.emit labels = .ok code labels') (hfit : Calls.Fit (Calls.ofClass c)) :
    List.Forall₂ BalancesStack c.subroutines code.functions := by
  have hall := (List.forall₂_and_left _ _).2
    ⟨Calls.fit_ofClass.1 hfit, Class.forall₂_functions he⟩
  refine hall.imp ?_
  rintro sub body ⟨hfit, l, l', hs⟩
  obtain ⟨inner, hi, rfl⟩ := Emit.subroutine_eq_ok.1 hs
  have hprologue := Emit.leads_prologue (Meaning.context c sub).symbols sub.kind
  exact Code.depthsAgree_of_leads
    (.function (hprologue.append (Emit.leads_statements sub.body hi hfit)))

theorem tableClass_balancesStack :
    ∃ code labels', tableClass.emit {} = .ok code labels' ∧ Calls.Fit (Calls.ofClass tableClass) ∧
      List.Forall₂ BalancesStack tableClass.subroutines code.functions :=
  ⟨_, _, rfl, by decide, Class.emit_balancesStack rfl (by decide)⟩

end JackCompiler
