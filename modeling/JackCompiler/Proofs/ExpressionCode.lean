import JackCompiler.Proofs.Calls
import JackCompiler.Proofs.Emission
import JackCompiler.Proofs.Meaning
/-!
# The code of an expression computes its value

Code of expressions has no jumps, so it runs from its first instruction to its last in whatever
function it stands. It puts exactly one word on the stack, the value of the expression, and leaves
the global state of its meaning; of the rest of the memory only `pointer 1` can have moved, because
an array is read through it. The statement is proved for whatever code follows and whatever stack is
below, since a term runs on top of the terms before it.
-/

namespace JackCompiler

namespace Machine

variable {calls : Callees} {body : Code} {m m₁ m' : Machine} {rest : Code} {stack : List Word}

/-- The machine comes to `m'`, where the given code comes next and the given stack is left. Its own
memory is as before, but `that` may have moved and calls may have changed temporary cells. -/
structure Arrives (calls : Callees) (body : Code) (m : Machine) (rest : Code) (stack : List Word)
    (m' : Machine) : Prop where
  reaches : Reaches calls body m m'
  rest_eq : m'.rest = rest
  stack_eq : m'.stack = stack
  frame_eq : m'.frame = m.frame
  temps_eq : calls.KeepTemps → m'.temps = m.temps

namespace Arrives

theorem trans {rest₁ : Code} {stack₁ : List Word} (h : Arrives calls body m rest₁ stack₁ m₁)
    (h' : Arrives calls body m₁ rest stack m') : Arrives calls body m rest stack m' where
  reaches := h.reaches.trans h'.reaches
  rest_eq := h'.rest_eq
  stack_eq := h'.stack_eq
  frame_eq := h'.frame_eq.trans h.frame_eq
  temps_eq hk := (h'.temps_eq hk).trans (h.temps_eq hk)

theorem refl (hr : m.rest = rest) (hs : m.stack = stack) : Arrives calls body m rest stack m :=
  ⟨.refl m, hr, hs, rfl, fun _ => rfl⟩

end Arrives

/-! ## One instruction -/

variable (calls body)

theorem arrives_push {segment : Segment} {i v : Word} (hr : m.rest = .push segment i :: rest)
    (hv : m.read segment i = some v) :
    ∃ m', Arrives calls body m rest (v :: m.stack) m' ∧ m'.globals = m.globals := by
  have hs : step calls body m = some { m with rest, stack := v :: m.stack } := by
    simp [step, hr, hv]
  exact ⟨_, ⟨.of_step hs, rfl, rfl, rfl, fun _ => rfl⟩, rfl⟩

theorem arrives_compute {op : Operation} (hr : m.rest = .compute op :: rest)
    (ha : op.apply m.stack = some stack) :
    ∃ m', Arrives calls body m rest stack m' ∧ m'.globals = m.globals := by
  have hs : step calls body m = some { m with rest, stack } := by
    simp [step, hr, ha]
  exact ⟨_, ⟨.of_step hs, rfl, rfl, rfl, fun _ => rfl⟩, rfl⟩

/-- A call finds its arguments on the stack, the last one on top. -/
theorem arrives_call {name : String} {n : UInt16} {args : List Word}
    (hr : m.rest = .call name n :: rest) (hs : m.stack = args.reverse ++ stack)
    (hn : n.toNat = args.length) :
    ∃ m', Arrives calls body m rest ((calls.answer name args m.globals).1 :: stack) m' ∧
      m'.globals = (calls.answer name args m.globals).2 := by
  have htake : (m.stack.take n.toNat).reverse = args := by
    rw [hs, hn, ← List.length_reverse, List.take_left, List.reverse_reverse]
  have hdrop : m.stack.drop n.toNat = stack := by
    rw [hs, hn, ← List.length_reverse, List.drop_left]
  have hle : n.toNat ≤ m.stack.length := by
    rw [hs, hn]
    simp
  have hstep : step calls body m = some { m with
      rest
      stack := (calls.answer name args m.globals).1 :: stack
      globals := (calls.answer name args m.globals).2
      temps := calls.temps name args m.globals m.temps } := by
    simp only [step, hr, call, if_pos hle, htake, hdrop]
  exact ⟨_, ⟨.of_step hstep, rfl, rfl, rfl, fun hk => hk _ _ _ _⟩, rfl⟩

/-- The segment of a variable holds its value. -/
theorem read_symbol (m : Machine) (s : Symbol) :
    m.read s.kind.segment (UInt16.ofNat s.index) = some (Memory.read ⟨m.frame, m.globals⟩ s) := by
  unfold Memory.read
  cases s.kind <;> rfl

/-- Reading an entry of an array moves `that` to it. -/
theorem arrives_entry {address : Word}
    (hr : m.rest = .pop .pointer 1 :: .push .that 0 :: rest) (hs : m.stack = address :: stack) :
    ∃ m', Arrives calls body m rest (m.globals.heap address :: stack) m' ∧
      m'.globals = m.globals := by
  have hstep : step calls body m =
      some { m with rest := .push .that 0 :: rest, stack, that := address } := by
    simp [step, hr, hs, write]
  obtain ⟨m', h', hg⟩ := arrives_push calls body
    (m := { m with rest := .push .that 0 :: rest, stack, that := address })
    (v := m.globals.heap address) rfl (by simp [read])
  exact ⟨m', .trans ⟨.of_step hstep, rfl, rfl, rfl, fun _ => rfl⟩ h', hg⟩

/-- An operator finds its second operand on top of its first. -/
theorem arrives_binary {op : BinaryOp} {a b : Word} (hr : m.rest = Emit.binary op :: rest)
    (hs : m.stack = b :: a :: stack) :
    ∃ m', Arrives calls body m rest ((Meaning.binary calls op a b m.globals).1 :: stack) m' ∧
      m'.globals = (Meaning.binary calls op a b m.globals).2 := by
  have hargs : m.stack = [a, b].reverse ++ stack := by simpa using hs
  cases op with
  | mul => exact arrives_call calls body hr hargs rfl
  | div => exact arrives_call calls body hr hargs rfl
  | _ => exact arrives_compute calls body hr (by rw [hs]; rfl)

theorem arrives_unary {op : UnaryOp} {a : Word} (hr : m.rest = Emit.unary op :: rest)
    (hs : m.stack = a :: stack) :
    ∃ m', Arrives calls body m rest (Meaning.unary op a :: stack) m' ∧ m'.globals = m.globals := by
  cases op <;> exact arrives_compute calls body hr (by rw [hs]; rfl)

theorem arrives_constant {c : NamedConstant} (hr : m.rest = Emit.constant c ++ rest) :
    ∃ m', Arrives calls body m rest (Meaning.constant m.frame c :: m.stack) m' ∧
      m'.globals = m.globals := by
  cases c with
  | true =>
    obtain ⟨m₁, h₁, hg₁⟩ := arrives_push calls body (v := 1) hr rfl
    obtain ⟨m₂, h₂, hg₂⟩ := arrives_compute calls body h₁.rest_eq (by rw [h₁.stack_eq]; rfl)
    exact ⟨m₂, h₁.trans h₂, hg₂.trans hg₁⟩
  | false => exact arrives_push calls body hr rfl
  | null => exact arrives_push calls body hr rfl
  | this => exact arrives_push calls body hr rfl

/-- Further characters are put behind the string on top of the stack. -/
theorem arrives_append {object : Word} (cs : List Char)
    (hr : m.rest = cs.flatMap (fun c =>
      [.push .constant (UInt16.ofNat c.toNat), .call "String.appendChar" 2]) ++ rest)
    (hs : m.stack = object :: stack) :
    ∃ m', Arrives calls body m rest ((Meaning.append calls cs object m.globals).1 :: stack) m' ∧
      m'.globals = (Meaning.append calls cs object m.globals).2 := by
  induction cs generalizing m object with
  | nil => exact ⟨m, .refl hr hs, rfl⟩
  | cons c cs ih =>
    obtain ⟨m₁, h₁, hg₁⟩ := arrives_push calls body (v := UInt16.ofNat c.toNat) hr rfl
    have hs₁ : m₁.stack = [object, UInt16.ofNat c.toNat].reverse ++ stack := by
      rw [h₁.stack_eq, hs]
      rfl
    obtain ⟨m₂, h₂, hg₂⟩ := arrives_call calls body h₁.rest_eq hs₁ rfl
    obtain ⟨m₃, h₃, hg₃⟩ := ih h₂.rest_eq h₂.stack_eq
    rw [hg₂, hg₁] at h₃ hg₃
    exact ⟨m₃, (h₁.trans h₂).trans h₃, hg₃⟩

theorem arrives_string {s : String} (hr : m.rest = Emit.string s ++ rest) :
    ∃ m', Arrives calls body m rest ((Meaning.string calls s m.globals).1 :: m.stack) m' ∧
      m'.globals = (Meaning.string calls s m.globals).2 := by
  obtain ⟨m₁, h₁, hg₁⟩ := arrives_push calls body (v := UInt16.ofNat s.length) hr rfl
  have hs₁ : m₁.stack = [UInt16.ofNat s.length].reverse ++ m.stack := h₁.stack_eq
  obtain ⟨m₂, h₂, hg₂⟩ := arrives_call calls body h₁.rest_eq hs₁ rfl
  obtain ⟨m₃, h₃, hg₃⟩ := arrives_append calls body s.toList h₂.rest_eq h₂.stack_eq
  rw [hg₂, hg₁] at h₃ hg₃
  exact ⟨m₃, (h₁.trans h₂).trans h₃, hg₃⟩

/-! ## Whole expressions -/

/-- The arguments of a call and its object can be counted in a word. -/
theorem toNat_ofNat_add_one {n : Nat} (h : n < 65535) : (UInt16.ofNat n + 1).toNat = n + 1 := by
  rw [UInt16.toNat_add, UInt16.toNat_ofNat']
  change (n % 65536 + 1) % 65536 = n + 1
  omega

/-- Code that puts the values of arguments on the stack, the last one on top. -/
def PutsArguments (ctx : Emit.Context) (calls : Callees) (body : Code) (args : List Expr)
    (code : Code) : Prop :=
  ∀ (m : Machine) (rest : Code), m.rest = code ++ rest →
    ∃ vs m', Meaning.arguments ctx calls m.frame args m.globals = some (vs, m'.globals) ∧
      vs.length = args.length ∧ Arrives calls body m rest (vs.reverse ++ m.stack) m'

/-- A call with an object: it goes in front of the arguments and makes one argument more. -/
theorem arrives_callObject {ctx : Emit.Context} {args : List Expr} {code : Code} {segment : Segment}
    {i object : Word} {callee : String} (hfit : args.length < 65535)
    (hargs : PutsArguments ctx calls body args code)
    (hr : m.rest = .push segment i
      :: (code ++ [.call callee (UInt16.ofNat args.length + 1)]) ++ rest)
    (hread : m.read segment i = some object) :
    ∃ vs g v m', Meaning.arguments ctx calls m.frame args m.globals = some (vs, g) ∧
      calls.answer callee (object :: vs) g = (v, m'.globals) ∧
      Arrives calls body m rest (v :: m.stack) m' := by
  rw [List.cons_append, List.append_assoc] at hr
  obtain ⟨m₁, h₁, hg₁⟩ := arrives_push calls body hr hread
  obtain ⟨vs, m₂, hm, hlen, h₂⟩ := hargs m₁ _ h₁.rest_eq
  rw [h₁.frame_eq, hg₁] at hm
  have hs₂ : m₂.stack = (object :: vs).reverse ++ m.stack := by
    rw [h₂.stack_eq, h₁.stack_eq]
    simp
  obtain ⟨m₃, h₃, hg₃⟩ := arrives_call calls body h₂.rest_eq hs₂
    (by rw [toNat_ofNat_add_one hfit, List.length_cons, hlen])
  exact ⟨vs, _, _, m₃, hm, by rw [hg₃], (h₁.trans h₂).trans h₃⟩

/-- A call works out its object first, then its arguments. -/
theorem arrives_callWith {ctx : Emit.Context} {receiver : Option String} {name : String}
    {args : List Expr} {code : Code} (hfit : args.length < 65535)
    (hargs : PutsArguments ctx calls body args code)
    (hr : m.rest = Emit.callWith ctx receiver name code (UInt16.ofNat args.length) ++ rest) :
    ∃ v m', Meaning.call ctx calls m.frame (.mk receiver name args) m.globals
        = some (v, m'.globals) ∧ Arrives calls body m rest (v :: m.stack) m' := by
  cases receiver with
  | none =>
    obtain ⟨vs, g, v, m', hm, hv, h⟩ := arrives_callObject calls body hfit hargs hr rfl
    exact ⟨v, m', by rw [Meaning.call, hm]; exact congrArg some hv, h⟩
  | some r =>
    simp only [Emit.callWith] at hr
    cases hs : ctx.symbols.resolve r with
    | some s =>
      rw [hs] at hr
      obtain ⟨vs, g, v, m', hm, hv, h⟩ :=
        arrives_callObject calls body hfit hargs hr (m.read_symbol s)
      exact ⟨v, m', by rw [Meaning.call, hs, hm]; exact congrArg some hv, h⟩
    | none =>
      -- a name that is no variable is a class, and a function of a class has no object
      rw [hs] at hr
      dsimp only at hr
      rw [List.append_assoc] at hr
      obtain ⟨vs, m₁, hm, hlen, h₁⟩ := hargs m _ hr
      have hn : (UInt16.ofNat args.length).toNat = vs.length := by
        rw [UInt16.toNat_ofNat', hlen]
        exact Nat.mod_eq_of_lt (by omega)
      obtain ⟨m₂, h₂, hg₂⟩ := arrives_call calls body h₁.rest_eq h₁.stack_eq hn
      refine ⟨_, m₂, ?_, h₁.trans h₂⟩
      rw [Meaning.call, hs, hm, hg₂]
      rfl

mutual

theorem arrives_expr {ctx : Emit.Context} (e : Expr) {code : Code} (m : Machine) (rest : Code)
    (he : Emit.expr ctx e = .ok code) (hfit : Calls.Fit (Calls.expr e))
    (hr : m.rest = code ++ rest) :
    ∃ v m', Meaning.expr ctx calls m.frame e m.globals = some (v, m'.globals) ∧
      Arrives calls body m rest (v :: m.stack) m' := by
  obtain ⟨head, tail⟩ := e
  obtain ⟨first, hf, others, ho, rfl⟩ := Emit.expr_eq_ok.1 he
  rw [Calls.expr, Calls.fit_append] at hfit
  rw [List.append_assoc] at hr
  obtain ⟨a, m₁, hm₁, h₁⟩ := arrives_term head m _ hf hfit.1 hr
  obtain ⟨v, m₂, hm₂, h₂⟩ := arrives_operands tail m₁ rest ho hfit.2 h₁.rest_eq h₁.stack_eq
  rw [h₁.frame_eq] at hm₂
  refine ⟨v, m₂, ?_, h₁.trans h₂⟩
  rw [Meaning.expr, hm₁]
  exact hm₂

theorem arrives_operands {ctx : Emit.Context} (tail : List (BinaryOp × Term)) {code : Code}
    {a : Word} {stack : List Word} (m : Machine) (rest : Code)
    (he : Emit.operands ctx tail = .ok code) (hfit : Calls.Fit (Calls.operands tail))
    (hr : m.rest = code ++ rest) (hs : m.stack = a :: stack) :
    ∃ v m', Meaning.operands ctx calls m.frame tail a m.globals = some (v, m'.globals) ∧
      Arrives calls body m rest (v :: stack) m' := by
  match tail with
  | [] =>
    obtain rfl := Emit.operands_nil_eq_ok.1 he
    exact ⟨a, m, rfl, .refl hr hs⟩
  | (op, t) :: tail =>
    obtain ⟨first, hf, others, ho, rfl⟩ := Emit.operands_cons_eq_ok.1 he
    rw [Calls.operands, Calls.fit_append] at hfit
    rw [List.append_assoc] at hr
    obtain ⟨b, m₁, hm₁, h₁⟩ := arrives_term t m _ hf hfit.1 hr
    obtain ⟨m₂, h₂, hg₂⟩ := arrives_binary calls body h₁.rest_eq (h₁.stack_eq.trans (by rw [hs]))
    obtain ⟨v, m₃, hm₃, h₃⟩ := arrives_operands tail m₂ rest ho hfit.2 h₂.rest_eq h₂.stack_eq
    rw [h₂.frame_eq, h₁.frame_eq, hg₂] at hm₃
    refine ⟨v, m₃, ?_, (h₁.trans h₂).trans h₃⟩
    rw [Meaning.operands, hm₁]
    exact hm₃

theorem arrives_term {ctx : Emit.Context} (t : Term) {code : Code} (m : Machine) (rest : Code)
    (he : Emit.term ctx t = .ok code) (hfit : Calls.Fit (Calls.term t))
    (hr : m.rest = code ++ rest) :
    ∃ v m', Meaning.term ctx calls m.frame t m.globals = some (v, m'.globals) ∧
      Arrives calls body m rest (v :: m.stack) m' := by
  match t with
  | .integer n =>
    obtain rfl := Emit.term_integer_eq_ok.1 he
    obtain ⟨m', h, hg⟩ := arrives_push calls body (v := n) hr rfl
    exact ⟨n, m', by rw [Meaning.term, hg], h⟩
  | .string s =>
    obtain rfl := Emit.term_string_eq_ok.1 he
    obtain ⟨m', h, hg⟩ := arrives_string calls body hr
    exact ⟨_, m', by rw [Meaning.term, hg], h⟩
  | .constant c =>
    obtain rfl := Emit.term_constant_eq_ok.1 he
    obtain ⟨m', h, hg⟩ := arrives_constant calls body hr
    exact ⟨_, m', by rw [Meaning.term, hg], h⟩
  | .paren e =>
    obtain ⟨v, m', hm, h⟩ := arrives_expr e m rest (Emit.term_paren_eq_ok.1 he) hfit hr
    exact ⟨v, m', by rw [Meaning.term, hm], h⟩
  | .unary op t =>
    obtain ⟨inner, hi, rfl⟩ := Emit.term_unary_eq_ok.1 he
    rw [List.append_assoc] at hr
    obtain ⟨a, m₁, hm₁, h₁⟩ := arrives_term t m _ hi hfit hr
    obtain ⟨m₂, h₂, hg₂⟩ := arrives_unary calls body h₁.rest_eq h₁.stack_eq
    refine ⟨_, m₂, ?_, h₁.trans h₂⟩
    rw [Meaning.term, hm₁, hg₂]
    rfl
  | .var name =>
    obtain ⟨s, hs, rfl⟩ := Emit.term_var_eq_ok.1 he
    obtain ⟨m', h, hg⟩ := arrives_push calls body hr (m.read_symbol s)
    refine ⟨_, m', ?_, h⟩
    rw [Meaning.term, hs, hg]
    rfl
  | .index name e =>
    obtain ⟨s, hs, offset, ho, rfl⟩ := Emit.term_index_eq_ok.1 he
    rw [List.cons_append, List.append_assoc] at hr
    obtain ⟨m₁, h₁, hg₁⟩ := arrives_push calls body hr (m.read_symbol s)
    obtain ⟨i, m₂, hm₂, h₂⟩ := arrives_expr e m₁ _ ho hfit h₁.rest_eq
    obtain ⟨m₃, h₃, hg₃⟩ := arrives_compute calls body h₂.rest_eq
      (by rw [h₂.stack_eq, h₁.stack_eq]; rfl)
    obtain ⟨m₄, h₄, hg₄⟩ := arrives_entry calls body h₃.rest_eq h₃.stack_eq
    rw [h₁.frame_eq, hg₁] at hm₂
    refine ⟨_, m₄, ?_, ((h₁.trans h₂).trans h₃).trans h₄⟩
    rw [Meaning.term, hs]
    simp only [Option.bind_eq_bind, Option.bind_some, hm₂, hg₄, hg₃]
    rfl
  | .call c =>
    obtain ⟨v, m', hm, h⟩ := arrives_call_tree c m rest (Emit.term_call_eq_ok.1 he) hfit hr
    exact ⟨v, m', by rw [Meaning.term, hm], h⟩

theorem arrives_call_tree {ctx : Emit.Context} (c : Call) {code : Code} (m : Machine) (rest : Code)
    (he : Emit.call ctx c = .ok code) (hfit : Calls.Fit (Calls.call c))
    (hr : m.rest = code ++ rest) :
    ∃ v m', Meaning.call ctx calls m.frame c m.globals = some (v, m'.globals) ∧
      Arrives calls body m rest (v :: m.stack) m' := by
  obtain ⟨receiver, name, args⟩ := c
  obtain ⟨inner, hi, rfl⟩ := Emit.call_eq_ok.1 he
  rw [Calls.call, Calls.fit_append] at hfit
  exact arrives_callWith calls body (hfit.2 _ (List.mem_singleton_self _))
    (fun m rest hr => arrives_arguments args m rest hi hfit.1 hr) hr

theorem arrives_arguments {ctx : Emit.Context} (es : List Expr) {code : Code} (m : Machine)
    (rest : Code) (he : Emit.arguments ctx es = .ok code) (hfit : Calls.Fit (Calls.arguments es))
    (hr : m.rest = code ++ rest) :
    ∃ vs m', Meaning.arguments ctx calls m.frame es m.globals = some (vs, m'.globals) ∧
      vs.length = es.length ∧ Arrives calls body m rest (vs.reverse ++ m.stack) m' := by
  match es with
  | [] =>
    obtain rfl := Emit.arguments_nil_eq_ok.1 he
    exact ⟨[], m, rfl, rfl, .refl hr rfl⟩
  | e :: es =>
    obtain ⟨first, hf, others, ho, rfl⟩ := Emit.arguments_cons_eq_ok.1 he
    rw [Calls.arguments, Calls.fit_append] at hfit
    rw [List.append_assoc] at hr
    obtain ⟨v, m₁, hm₁, h₁⟩ := arrives_expr e m _ hf hfit.1 hr
    obtain ⟨vs, m₂, hm₂, hlen, h₂⟩ := arrives_arguments es m₁ rest ho hfit.2 h₁.rest_eq
    rw [h₁.frame_eq] at hm₂
    refine ⟨v :: vs, m₂, ?_, by simp [hlen], ?_⟩
    · rw [Meaning.arguments, hm₁]
      simp only [Option.bind_eq_bind, Option.bind_some, hm₂]
      rfl
    · have := h₁.trans h₂
      rw [h₁.stack_eq] at this
      simpa using this

end

/-- **Expression code computes the expression.** The machine comes to the instruction behind the
code with one word more on its stack, the value of the expression, and with the global state of its
meaning. Nothing else of its memory has changed but `that`, if calls keep the temporary cells. -/
theorem computes_expr {ctx : Emit.Context} {e : Expr} {code : Code}
    (he : Emit.expr ctx e = .ok code) (hfit : Calls.Fit (Calls.expr e)) (calls : Callees)
    (body rest : Code) (m : Machine) (hr : m.rest = code ++ rest) :
    ∃ v m', Meaning.expr ctx calls m.frame e m.globals = some (v, m'.globals) ∧
      Reaches calls body m m' ∧ m'.rest = rest ∧ m'.stack = v :: m.stack ∧ m'.frame = m.frame ∧
      (calls.KeepTemps → m'.temps = m.temps) := by
  obtain ⟨v, m', hv, h⟩ := arrives_expr calls body e m rest he hfit hr
  exact ⟨v, m', hv, h.reaches, h.rest_eq, h.stack_eq, h.frame_eq, h.temps_eq⟩

end Machine

/-- Called functions of which one multiplies. -/
def multiplying : Callees where
  answer name args g :=
    match name, args with
    | "Math.multiply", [a, b] => (a * b, g)
    | _, _ => (0, g)
  temps _ _ _ temps := temps

/-- The expression `x[1] + 3 * 4`. -/
def entryProduct : Expr :=
  .mk (.index "x" (.mk (.integer 1) [])) [(.add, .integer 3), (.mul, .integer 4)]

/-- A function of `Main` with an argument `x`. -/
def entryContext : Emit.Context where
  className := "Main"
  symbols := ({} : SymbolTable).define "x" "Array" .argument
  isVoid := false

/-- A machine in which every argument is 100 and every address holds itself. -/
def entryMachine (code : Code) : Machine where
  rest := code ++ [.ret]
  stack := [7]
  frame := ⟨fun _ => 0, fun _ => 100, 0⟩
  that := 0
  temps _ := 0
  globals := ⟨fun _ => 0, fun address => address⟩

theorem Machine.computes_entryProduct :
    ∃ code m', Emit.expr entryContext entryProduct = .ok code ∧
      Calls.Fit (Calls.expr entryProduct) ∧ Reaches multiplying code (entryMachine code) m' ∧
      m'.rest = [.ret] ∧ m'.stack = [416, 7] := by
  have he : Emit.expr entryContext entryProduct = .ok _ := rfl
  obtain ⟨v, m', hv, hreach, hrest, hstack, -⟩ :=
    computes_expr he (by decide) multiplying _ [.ret] (entryMachine _) rfl
  obtain rfl : 416 = v := congrArg Prod.fst (Option.some.inj hv)
  exact ⟨_, m', he, by decide, hreach, hrest, hstack⟩

end JackCompiler
