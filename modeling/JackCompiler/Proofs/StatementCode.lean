import JackCompiler.Proofs.ExpressionCode
/-!
# The code of a statement does what the statement means

The code of a block stands somewhere in the code of a function whose labels are all different, so a
jump goes to the one place where its label is marked. Between two statements the stack is empty. The
two directions are proved apart: a statement that ends makes the machine end in the same way
(`shows_block`, by induction on the meaning), and a machine that returns was in a statement that
ends (`ends_of_returnsIn`, by induction on the number of steps, which every jump back makes
smaller).
-/

namespace JackCompiler

namespace Machine

open Meaning (Runs RunsAll Outcome Holds)

variable {ctx : Emit.Context} (calls : Callees) (body : Code) {rest after : Code} {m m' : Machine}
variable {mem : Memory} {v : Word} {g : Globals}

/-- The machine stands between two statements: the given code comes next, nothing is on the stack,
and the memory is the given one. -/
structure Stands (m : Machine) (rest : Code) (mem : Memory) : Prop where
  rest_eq : m.rest = rest
  stack_eq : m.stack = []
  frame_eq : m.frame = mem.frame
  globals_eq : m.globals = mem.globals

/-- A label that is marked once is where its mark is. -/
theorem atLabel_of_nodup {body : Code} {name : String} (before : Code)
    (hnd : (Code.labels body).Nodup) (hbody : body = before ++ .label name :: rest) :
    body.atLabel name = some (.label name :: rest) := by
  subst hbody
  refine Code.atLabel_eq fun hmem => ?_
  rw [Code.labels_append, List.nodup_append] at hnd
  exact hnd.2.2 name hmem name (by simp [Instruction.label?]) rfl

/-! ## Statements without blocks -/

/-- The value of an expression is put on the empty stack. -/
theorem Stands.expr {e : Expr} {code : Code} (hm : Stands m (code ++ rest) mem)
    (he : Emit.expr ctx e = .ok code) (hfit : Calls.Fit (Calls.expr e)) :
    ∃ v m', Meaning.expr ctx calls mem.frame e mem.globals = some (v, m'.globals) ∧
      Arrives calls body m rest [v] m' ∧ m'.frame = mem.frame := by
  obtain ⟨v, m', hv, h⟩ := arrives_expr calls body e m rest he hfit hm.rest_eq
  rw [hm.frame_eq, hm.globals_eq] at hv
  rw [hm.stack_eq] at h
  exact ⟨v, m', hv, h, h.frame_eq.trans hm.frame_eq⟩

theorem write_symbol (m : Machine) (s : Symbol) (v : Word) :
    ∃ m', m.write v s.kind.segment (UInt16.ofNat s.index) = some m' ∧ m'.rest = m.rest ∧
      m'.stack = m.stack ∧
      (⟨m'.frame, m'.globals⟩ : Memory) = Memory.write ⟨m.frame, m.globals⟩ s v := by
  unfold Memory.write
  cases s.kind <;> exact ⟨_, rfl, rfl, rfl, rfl⟩

/-- A word is moved from the stack into a variable. -/
theorem advances_popSymbol {s : Symbol} (hr : m.rest = Emit.popSymbol s :: rest)
    (hs : m.stack = [v]) :
    ∃ m', Advances calls body m m' ∧ Stands m' rest (Memory.write ⟨m.frame, m.globals⟩ s v) := by
  obtain ⟨m', hw, hrest, hstack, hmem⟩ := write_symbol { m with rest, stack := [] } s v
  have hstep : step calls body m = some m' := by
    rw [← hw]
    simp [step, hr, hs, Emit.popSymbol]
  refine ⟨m', .of_step hstep, hrest, hstack, ?_, ?_⟩
  · rw [← hmem]
  · rw [← hmem]

/-- An assignment to a variable. -/
theorem Stands.assign {name : String} {s : Symbol} {e : Expr} {code : Code}
    (hm : Stands m (code ++ after) mem) (he : Emit.assign ctx name none e = .ok code)
    (hfit : Calls.Fit (Calls.expr e)) (hs : ctx.symbols.resolve name = some s) :
    ∃ v g m', Meaning.expr ctx calls mem.frame e mem.globals = some (v, g) ∧
      Advances calls body m m' ∧ Stands m' after (Memory.write ⟨mem.frame, g⟩ s v) := by
  obtain ⟨s', hs', inner, hi, rfl⟩ := Emit.assign_none_eq_ok.1 he
  obtain rfl : s = s' := Option.some.inj (hs.symm.trans hs')
  rw [List.append_assoc] at hm
  obtain ⟨v, m₁, hv, h₁, hf₁⟩ := hm.expr calls body hi hfit
  obtain ⟨m₂, h₂, hm₂⟩ := advances_popSymbol calls body h₁.rest_eq h₁.stack_eq
  rw [hf₁] at hm₂
  exact ⟨v, m₁.globals, m₂, hv, h₁.reaches.advances h₂, hm₂⟩

/-- The end of an assignment to an entry of an array: the address has waited below the value. -/
theorem advances_store {address : Word}
    (hr : m.rest = .pop .temp 0 :: .pop .pointer 1 :: .push .temp 0 :: .pop .that 0 :: rest)
    (hs : m.stack = [v, address]) :
    ∃ m', Advances calls body m m' ∧
      Stands m' rest (Memory.store ⟨m.frame, m.globals⟩ address v) := by
  obtain ⟨rest', stack', frame, that, temps, globals⟩ := m
  obtain rfl : rest' = _ := hr
  obtain rfl : stack' = _ := hs
  refine ⟨_, .trans (.of_step rfl) (.trans (.of_step rfl) (.trans (.of_step rfl) (.of_step rfl))),
    rfl, rfl, rfl, ?_⟩
  simp [Memory.store, Machine.store]

/-- An assignment to an entry of an array. The value may move `that`; the address is safe on the
stack. -/
theorem Stands.assignEntry {name : String} {s : Symbol} {index e : Expr} {code : Code}
    (hm : Stands m (code ++ after) mem) (he : Emit.assign ctx name (some index) e = .ok code)
    (hfit : Calls.Fit (Calls.expr index ++ Calls.expr e))
    (hs : ctx.symbols.resolve name = some s) :
    ∃ offset g v g' m', Meaning.expr ctx calls mem.frame index mem.globals = some (offset, g) ∧
      Meaning.expr ctx calls mem.frame e g = some (v, g') ∧ Advances calls body m m' ∧
      Stands m' after (Memory.store ⟨mem.frame, g'⟩ (mem.read s + offset) v) := by
  -- four stages: the array, its index, the sum of both, and the value
  obtain ⟨s', hs', first, hf, inner, hi, rfl⟩ := Emit.assign_some_eq_ok.1 he
  obtain rfl : s = s' := Option.some.inj (hs.symm.trans hs')
  rw [Calls.fit_append] at hfit
  have hr := hm.rest_eq
  simp only [List.cons_append, List.append_assoc] at hr
  obtain ⟨m₁, h₁, hg₁⟩ := arrives_push calls body hr (m.read_symbol s)
  obtain ⟨offset, m₂, hv₂, h₂⟩ := arrives_expr calls body index m₁ _ hf hfit.1 h₁.rest_eq
  obtain ⟨m₃, h₃, hg₃⟩ := arrives_compute calls body h₂.rest_eq
    (by rw [h₂.stack_eq, h₁.stack_eq, hm.stack_eq]; rfl)
  -- the value is worked out on top of the address
  obtain ⟨v, m₄, hv₄, h₄⟩ := arrives_expr calls body e m₃ _ hi hfit.2 h₃.rest_eq
  rw [h₃.stack_eq] at h₄
  obtain ⟨m₅, h₅, hm₅⟩ := advances_store calls body h₄.rest_eq h₄.stack_eq
  have hf₁ : m₁.frame = mem.frame := h₁.frame_eq.trans hm.frame_eq
  have hf₃ : m₃.frame = mem.frame := h₃.frame_eq.trans (h₂.frame_eq.trans hf₁)
  rw [hf₁, hg₁, hm.globals_eq] at hv₂
  rw [hf₃, hg₃] at hv₄
  rw [h₄.frame_eq, hf₃, hm.frame_eq, hm.globals_eq] at hm₅
  exact ⟨offset, _, v, _, m₅, hv₂, hv₄,
    (((h₁.trans h₂).trans h₃).trans h₄).reaches.advances h₅, hm₅⟩

/-- A call whose result is dropped. -/
theorem Stands.perform {c : Call} {code : Code}
    (hm : Stands m (code ++ .pop .temp 0 :: after) mem) (he : Emit.call ctx c = .ok code)
    (hfit : Calls.Fit (Calls.call c)) :
    ∃ v g m', Meaning.call ctx calls mem.frame c mem.globals = some (v, g) ∧
      Advances calls body m m' ∧ Stands m' after ⟨mem.frame, g⟩ := by
  obtain ⟨v, m₁, hv, h₁⟩ := arrives_call_tree calls body c m _ he hfit hm.rest_eq
  rw [hm.frame_eq, hm.globals_eq] at hv
  rw [hm.stack_eq] at h₁
  have hstep : step calls body m₁ = some { m₁ with
      rest := after, stack := [], temps := Function.update m₁.temps 0 v } := by
    simp [step, h₁.rest_eq, h₁.stack_eq, write, tempCells]
  exact ⟨v, m₁.globals, _, hv, h₁.reaches.advances (.of_step hstep), rfl, rfl,
    h₁.frame_eq.trans hm.frame_eq, rfl⟩

/-- A subroutine is left with the value on the stack, or with zero above it. -/
theorem returns_leaveTail {stack : List Word} (hr : m.rest = Emit.leaveTail ctx ++ after)
    (hs : m.stack = stack) (hv : ctx.isVoid = false → stack.head? = some v) :
    Returns calls body m (if ctx.isVoid then 0 else v) m.globals := by
  unfold Emit.leaveTail at hr
  split at hr
  · next hvoid =>
    obtain ⟨m₁, h₁, hg₁⟩ := arrives_push calls body (v := 0) hr rfl
    refine .of_reaches h₁.reaches (.of_result? ?_)
    simp [result?, h₁.rest_eq, h₁.stack_eq, hg₁, hvoid]
  · next hvoid =>
    obtain ⟨w, hw⟩ := List.head?_eq_some_iff.1 (hv (by simpa using hvoid))
    refine .of_result? ?_
    simp [result?, hr, hs, hw, hvoid]

theorem Stands.leave {e : Expr} {code : Code} (hm : Stands m (code ++ after) mem)
    (he : Emit.leave ctx (some e) = .ok code) (hfit : Calls.Fit (Calls.expr e)) :
    ∃ v g, Meaning.expr ctx calls mem.frame e mem.globals = some (v, g) ∧
      Returns calls body m (if ctx.isVoid then 0 else v) g := by
  obtain ⟨inner, hi, rfl⟩ := Emit.leave_some_eq_ok.1 he
  rw [List.append_assoc] at hm
  obtain ⟨v, m₁, hv, h₁, -⟩ := hm.expr calls body hi hfit
  exact ⟨v, m₁.globals, hv,
    .of_reaches h₁.reaches (returns_leaveTail calls body h₁.rest_eq h₁.stack_eq fun _ => rfl)⟩

theorem Stands.leaveVoid {code : Code} (hm : Stands m (code ++ after) mem)
    (he : Emit.leave ctx none = .ok code) (hvoid : ctx.isVoid) :
    Returns calls body m 0 mem.globals := by
  obtain rfl := Emit.leave_none_eq_ok.1 he
  have h := returns_leaveTail calls body (v := 0) hm.rest_eq hm.stack_eq (by simp [hvoid])
  rwa [if_pos hvoid, hm.globals_eq] at h

/-- A subroutine with a result does not return from a `return` without a value. -/
theorem Stands.isVoid_of_returnsIn {n : Nat} {code : Code} (hm : Stands m (code ++ after) mem)
    (he : Emit.leave ctx none = .ok code) (h : ReturnsIn calls body n m v g) : ctx.isVoid := by
  obtain rfl := Emit.leave_none_eq_ok.1 he
  by_contra hvoid
  -- the code is a bare `return`, and there is nothing on the stack to return
  have hr : m.rest = .ret :: after := by
    rw [hm.rest_eq, Emit.leaveTail, if_neg hvoid]
    rfl
  obtain ⟨m₁, hn, hres⟩ := h
  cases n with
  | zero =>
    obtain rfl : m = m₁ := Option.some.inj hn
    simp [result?, hr, hm.stack_eq] at hres
  | succ n => simp [run, step, hr] at hn

/-! ## Branches and loops -/

/-- A condition is tested: the next instructions follow if it holds, the label if it does not. -/
theorem Stands.test {condition : Expr} {test target : Code} {name : String}
    (hm : Stands m (test ++ .compute .not :: .ifGoto name :: rest) mem)
    (he : Emit.expr ctx condition = .ok test) (hfit : Calls.Fit (Calls.expr condition))
    (hat : body.atLabel name = some target) :
    ∃ v g m', Meaning.expr ctx calls mem.frame condition mem.globals = some (v, g) ∧
      Advances calls body m m' ∧ (Holds v → Stands m' rest ⟨mem.frame, g⟩) ∧
      (¬ Holds v → Stands m' target ⟨mem.frame, g⟩) := by
  obtain ⟨v, m₁, hv, h₁, hf₁⟩ := hm.expr calls body he hfit
  obtain ⟨m₂, h₂, hg₂⟩ := arrives_compute calls body h₁.rest_eq (by rw [h₁.stack_eq]; rfl)
  have hf₂ : m₂.frame = mem.frame := h₂.frame_eq.trans hf₁
  have hreach : Reaches calls body m m₂ := h₁.reaches.trans h₂.reaches
  by_cases hh : Holds v
  · have hstep : step calls body m₂ = some { m₂ with rest, stack := [] } := by
      simp only [step, h₂.rest_eq, h₂.stack_eq]
      exact if_pos hh
    exact ⟨v, _, _, hv, hreach.advances (.of_step hstep),
      fun _ => ⟨rfl, rfl, hf₂, hg₂⟩, fun hn => absurd hh hn⟩
  · have hstep : step calls body m₂ = some { m₂ with rest := target, stack := [] } := by
      simp only [step, h₂.rest_eq, h₂.stack_eq, hat]
      exact if_neg hh
    exact ⟨v, _, _, hv, hreach.advances (.of_step hstep),
      fun hy => absurd hy hh, fun _ => ⟨rfl, rfl, hf₂, hg₂⟩⟩

theorem Stands.label {name : String} (hm : Stands m (.label name :: rest) mem) :
    ∃ m', Advances calls body m m' ∧ Stands m' rest mem := by
  have hstep : step calls body m = some { m with rest } := by
    simp [step, hm.rest_eq]
  exact ⟨_, .of_step hstep, rfl, hm.stack_eq, hm.frame_eq, hm.globals_eq⟩

theorem Stands.goto {name : String} {target : Code} (hm : Stands m (.goto name :: rest) mem)
    (hat : body.atLabel name = some target) :
    ∃ m', Advances calls body m m' ∧ Stands m' target mem := by
  have hstep : step calls body m = some { m with rest := target } := by
    simp [step, hm.rest_eq, hat]
  exact ⟨_, .of_step hstep, rfl, hm.stack_eq, hm.frame_eq, hm.globals_eq⟩

section Blocks

variable {before test first second inner : Code} {n : Nat} {condition : Expr}

/-- The code of a branch behind its first block. -/
def branchExit (n : Nat) (second after : Code) : Code :=
  .goto (Labels.text "IF" "END" n) :: .label (Labels.text "IF" "FALSE" n)
    :: (second ++ .label (Labels.text "IF" "END" n) :: after)

/-- The code of a loop behind its body. -/
def loopExit (n : Nat) (after : Code) : Code :=
  .goto (Labels.text "WHILE" "EXP" n) :: .label (Labels.text "WHILE" "END" n) :: after

theorem branchCode_append (n : Nat) (test first second after : Code) :
    Emit.branchCode n test first second ++ after =
      test ++ .compute .not :: .ifGoto (Labels.text "IF" "FALSE" n)
        :: (first ++ branchExit n second after) := by
  simp [Emit.branchCode, branchExit]

theorem loopCode_append (n : Nat) (test inner after : Code) :
    Emit.loopCode n test inner ++ after =
      .label (Labels.text "WHILE" "EXP" n) :: (test ++ .compute .not
        :: .ifGoto (Labels.text "WHILE" "END" n) :: (inner ++ loopExit n after)) := by
  simp [Emit.loopCode, loopExit]

/-- A branch works out its condition and goes on with one of its blocks. -/
theorem Stands.branch (hnd : (Code.labels body).Nodup)
    (hbody : body = before ++ (Emit.branchCode n test first second ++ after))
    (hm : Stands m (Emit.branchCode n test first second ++ after) mem)
    (he : Emit.expr ctx condition = .ok test) (hfit : Calls.Fit (Calls.expr condition)) :
    ∃ v g m', Meaning.expr ctx calls mem.frame condition mem.globals = some (v, g) ∧
      Advances calls body m m' ∧
      (Holds v → Stands m' (first ++ branchExit n second after) ⟨mem.frame, g⟩) ∧
      (¬ Holds v →
        Stands m' (second ++ .label (Labels.text "IF" "END" n) :: after) ⟨mem.frame, g⟩) := by
  have hat : body.atLabel (Labels.text "IF" "FALSE" n) = some (.label (Labels.text "IF" "FALSE" n)
      :: (second ++ .label (Labels.text "IF" "END" n) :: after)) := by
    refine atLabel_of_nodup (before ++ (test ++ .compute .not
      :: .ifGoto (Labels.text "IF" "FALSE" n) :: (first ++ [.goto (Labels.text "IF" "END" n)])))
      hnd ?_
    simp [hbody, Emit.branchCode]
  rw [branchCode_append] at hm
  obtain ⟨v, g, m₁, hv, h₁, hyes, hno⟩ := hm.test calls body he hfit hat
  by_cases hh : Holds v
  · exact ⟨v, g, m₁, hv, h₁, hyes, fun hn => absurd hh hn⟩
  · obtain ⟨m₂, h₂, hm₂⟩ := (hno hh).label calls body
    exact ⟨v, g, m₂, hv, h₁.trans h₂, fun hy => absurd hy hh, fun _ => hm₂⟩

/-- Behind its first block a branch goes to its end. -/
theorem Stands.branchExit (hnd : (Code.labels body).Nodup)
    (hbody : body = before ++ (Emit.branchCode n test first second ++ after))
    (hm : Stands m (branchExit n second after) mem) :
    ∃ m', Advances calls body m m' ∧ Stands m' after mem := by
  have hat : body.atLabel (Labels.text "IF" "END" n)
      = some (.label (Labels.text "IF" "END" n) :: after) := by
    refine atLabel_of_nodup (before ++ (test ++ .compute .not
      :: .ifGoto (Labels.text "IF" "FALSE" n) :: (first ++ .goto (Labels.text "IF" "END" n)
      :: .label (Labels.text "IF" "FALSE" n) :: second))) hnd ?_
    simp [hbody, Emit.branchCode]
  obtain ⟨m₁, h₁, hm₁⟩ := hm.goto calls body hat
  obtain ⟨m₂, h₂, hm₂⟩ := hm₁.label calls body
  exact ⟨m₂, h₁.trans h₂, hm₂⟩

/-- A loop works out its condition and goes on with its body or with what follows it. -/
theorem Stands.loop (hnd : (Code.labels body).Nodup)
    (hbody : body = before ++ (Emit.loopCode n test inner ++ after))
    (hm : Stands m (Emit.loopCode n test inner ++ after) mem)
    (he : Emit.expr ctx condition = .ok test) (hfit : Calls.Fit (Calls.expr condition)) :
    ∃ v g m', Meaning.expr ctx calls mem.frame condition mem.globals = some (v, g) ∧
      Advances calls body m m' ∧
      (Holds v → Stands m' (inner ++ loopExit n after) ⟨mem.frame, g⟩) ∧
      (¬ Holds v → Stands m' after ⟨mem.frame, g⟩) := by
  have hat : body.atLabel (Labels.text "WHILE" "END" n)
      = some (.label (Labels.text "WHILE" "END" n) :: after) := by
    refine atLabel_of_nodup (before ++ (.label (Labels.text "WHILE" "EXP" n) :: (test
      ++ .compute .not :: .ifGoto (Labels.text "WHILE" "END" n)
      :: (inner ++ [.goto (Labels.text "WHILE" "EXP" n)])))) hnd ?_
    simp [hbody, Emit.loopCode]
  rw [loopCode_append] at hm
  obtain ⟨m₁, h₁, hm₁⟩ := hm.label calls body
  obtain ⟨v, g, m₂, hv, h₂, hyes, hno⟩ := hm₁.test calls body he hfit hat
  by_cases hh : Holds v
  · exact ⟨v, g, m₂, hv, h₁.trans h₂, hyes, fun hn => absurd hh hn⟩
  · obtain ⟨m₃, h₃, hm₃⟩ := (hno hh).label calls body
    exact ⟨v, g, m₃, hv, (h₁.trans h₂).trans h₃, fun hy => absurd hy hh, fun _ => hm₃⟩

/-- Behind its body a loop begins again. -/
theorem Stands.loopExit (hnd : (Code.labels body).Nodup)
    (hbody : body = before ++ (Emit.loopCode n test inner ++ after))
    (hm : Stands m (loopExit n after) mem) :
    ∃ m', Advances calls body m m' ∧ Stands m' (Emit.loopCode n test inner ++ after) mem := by
  refine hm.goto calls body ?_
  rw [loopCode_append] at hbody ⊢
  exact atLabel_of_nodup before hnd hbody

variable {body}

/-- The first block of a branch in the code of the function. -/
theorem body_branchYes (hbody : body = before ++ (Emit.branchCode n test first second ++ after)) :
    body = (before ++ (test ++ [.compute .not, .ifGoto (Labels.text "IF" "FALSE" n)]))
      ++ (first ++ branchExit n second after) := by
  simp [hbody, Emit.branchCode, Machine.branchExit]

/-- The second block of a branch in the code of the function. -/
theorem body_branchNo (hbody : body = before ++ (Emit.branchCode n test first second ++ after)) :
    body = (before ++ (test ++ .compute .not :: .ifGoto (Labels.text "IF" "FALSE" n) :: (first
        ++ [.goto (Labels.text "IF" "END" n), .label (Labels.text "IF" "FALSE" n)])))
      ++ (second ++ .label (Labels.text "IF" "END" n) :: after) := by
  simp [hbody, Emit.branchCode]

/-- The body of a loop in the code of the function. -/
theorem body_loop (hbody : body = before ++ (Emit.loopCode n test inner ++ after)) :
    body = (before ++ (.label (Labels.text "WHILE" "EXP" n) :: (test
        ++ [.compute .not, .ifGoto (Labels.text "WHILE" "END" n)])))
      ++ (inner ++ loopExit n after) := by
  simp [hbody, Emit.loopCode, Machine.loopExit]

end Blocks

/-! ## From the meaning to the machine -/

variable {calls body}

/-- The machine does what an outcome says: it comes to the code that follows, or it returns. -/
def Shows (calls : Callees) (body : Code) (m : Machine) (after : Code) : Outcome → Prop
  | .next mem => ∃ m', Reaches calls body m m' ∧ Stands m' after mem
  | .returned v g => Returns calls body m v g

theorem Shows.of_reaches {o : Outcome} (hm : Reaches calls body m m')
    (h : Shows calls body m' after o) : Shows calls body m after o := by
  cases o with
  | next mem =>
    obtain ⟨m₁, h₁, hs⟩ := h
    exact ⟨m₁, hm.trans h₁, hs⟩
  | returned v g => exact Returns.of_reaches hm h

/-- The code between two places is run unless the subroutine is left before it. -/
theorem Shows.andThen {o : Outcome} (h : Shows calls body m rest o)
    (hnext : ∀ mem m', Stands m' rest mem →
      ∃ m'', Advances calls body m' m'' ∧ Stands m'' after mem) : Shows calls body m after o := by
  cases o with
  | next mem =>
    obtain ⟨m₁, h₁, hs⟩ := h
    obtain ⟨m₂, h₂, hs₂⟩ := hnext mem m₁ hs
    exact ⟨m₂, h₁.trans h₂.reaches, hs₂⟩
  | returned v g => exact h

mutual

/-- The machine does what a statement means. -/
theorem shows_statement {s : Statement} {mem : Memory} {o : Outcome} {code before after : Code}
    {l l' : Labels} {m : Machine} (hrun : Runs ctx calls s mem o)
    (hnd : (Code.labels body).Nodup) (he : Emit.statement ctx s l = .ok code l')
    (hfit : Calls.Fit (Calls.statement s)) (hbody : body = before ++ (code ++ after))
    (hm : Stands m (code ++ after) mem) : Shows calls body m after o := by
  match hrun with
  | .assign hs hv =>
    obtain ⟨v, g, m', hv', h, hm'⟩ := hm.assign calls body
      (Emit.statement_assign_eq_ok.1 he).1 hfit hs
    cases hv.symm.trans hv'
    exact ⟨m', h.reaches, hm'⟩
  | .assignEntry hs ho hv =>
    obtain ⟨offset, g, v, g', m', ho', hv', h, hm'⟩ := hm.assignEntry calls body
      (Emit.statement_assign_eq_ok.1 he).1 hfit hs
    cases ho.symm.trans ho'
    cases hv.symm.trans hv'
    exact ⟨m', h.reaches, hm'⟩
  | .branchYes hc hh hyes =>
    obtain ⟨hfc, hfy, -⟩ := Calls.fit_branch.1 hfit
    obtain ⟨test, ht, first, l₁, hf, second, -, rfl⟩ := Emit.statement_branch_eq_ok.1 he
    obtain ⟨v, g, m₁, hc', h₁, hm₁, -⟩ := hm.branch calls body hnd hbody ht hfc
    cases hc.symm.trans hc'
    exact .of_reaches h₁.reaches (.andThen
      (shows_block hyes hnd hf hfy (body_branchYes hbody) (hm₁ hh))
      fun mem' m' hm' => hm'.branchExit calls body hnd hbody)
  | .branchNo hc hh hno =>
    obtain ⟨hfc, -, hfn⟩ := Calls.fit_branch.1 hfit
    obtain ⟨test, ht, first, l₁, -, second, hs, rfl⟩ := Emit.statement_branch_eq_ok.1 he
    obtain ⟨v, g, m₁, hc', h₁, -, hm₁⟩ := hm.branch calls body hnd hbody ht hfc
    cases hc.symm.trans hc'
    exact .of_reaches h₁.reaches (.andThen
      (shows_block hno hnd hs hfn (body_branchNo hbody) (hm₁ hh))
      fun mem' m' hm' => hm'.label calls body)
  | .loopEnd hc hh =>
    obtain ⟨test, ht, inner, -, rfl⟩ := Emit.statement_loop_eq_ok.1 he
    rw [Calls.statement, Calls.fit_append] at hfit
    obtain ⟨v, g, m₁, hc', h₁, -, hm₁⟩ := hm.loop calls body hnd hbody ht hfit.1
    cases hc.symm.trans hc'
    exact ⟨m₁, h₁.reaches, hm₁ hh⟩
  | .loopAgain hc hh hinner hagain =>
    obtain ⟨test, ht, inner, hi, rfl⟩ := Emit.statement_loop_eq_ok.1 he
    have hfit' := hfit
    rw [Calls.statement, Calls.fit_append] at hfit'
    obtain ⟨v, g, m₁, hc', h₁, hm₁, -⟩ := hm.loop calls body hnd hbody ht hfit'.1
    cases hc.symm.trans hc'
    obtain ⟨m₂, h₂, hm₂⟩ := shows_block hinner hnd hi hfit'.2 (body_loop hbody) (hm₁ hh)
    obtain ⟨m₃, h₃, hm₃⟩ := hm₂.loopExit calls body hnd hbody
    -- the same statement comes again, with a smaller derivation
    exact .of_reaches ((h₁.reaches.trans h₂).trans h₃.reaches)
      (shows_statement hagain hnd he hfit hbody hm₃)
  | .loopLeave hc hh hinner =>
    obtain ⟨test, ht, inner, hi, rfl⟩ := Emit.statement_loop_eq_ok.1 he
    rw [Calls.statement, Calls.fit_append] at hfit
    obtain ⟨v, g, m₁, hc', h₁, hm₁, -⟩ := hm.loop calls body hnd hbody ht hfit.1
    cases hc.symm.trans hc'
    have hret := shows_block hinner hnd hi hfit.2 (body_loop hbody) (hm₁ hh)
    exact Returns.of_reaches h₁.reaches hret
  | .perform hv =>
    obtain ⟨⟨inner, hi, rfl⟩, -⟩ := Emit.statement_perform_eq_ok.1 he
    rw [List.append_assoc] at hm
    obtain ⟨v, g, m', hv', h, hm'⟩ := hm.perform calls body hi hfit
    cases hv.symm.trans hv'
    exact ⟨m', h.reaches, hm'⟩
  | .leave hv =>
    obtain ⟨v, g, hv', h⟩ := hm.leave calls body (Emit.statement_leave_eq_ok.1 he).1 hfit
    cases hv.symm.trans hv'
    exact h
  | .leaveVoid hvoid => exact hm.leaveVoid calls body (Emit.statement_leave_eq_ok.1 he).1 hvoid

/-- The machine does what a block means. -/
theorem shows_block {block : List Statement} {mem : Memory} {o : Outcome}
    {code before after : Code} {l l' : Labels} {m : Machine} (hrun : RunsAll ctx calls block mem o)
    (hnd : (Code.labels body).Nodup) (he : Emit.statements ctx block l = .ok code l')
    (hfit : Calls.Fit (Calls.statements block)) (hbody : body = before ++ (code ++ after))
    (hm : Stands m (code ++ after) mem) : Shows calls body m after o := by
  match hrun with
  | .nil =>
    obtain ⟨rfl, -⟩ := Emit.statements_nil_eq_ok.1 he
    exact ⟨m, .refl m, hm⟩
  | .cons hs hrest =>
    obtain ⟨first, l₁, hf, others, ho, rfl⟩ := Emit.statements_cons_eq_ok.1 he
    rw [Calls.statements, Calls.fit_append] at hfit
    rw [List.append_assoc] at hm hbody
    obtain ⟨m₁, h₁, hm₁⟩ := shows_statement hs hnd hf hfit.1 hbody hm
    rw [← List.append_assoc] at hbody
    exact .of_reaches h₁ (shows_block hrest hnd ho hfit.2 hbody hm₁)
  | .leave hs =>
    obtain ⟨first, l₁, hf, others, ho, rfl⟩ := Emit.statements_cons_eq_ok.1 he
    rw [Calls.statements, Calls.fit_append] at hfit
    rw [List.append_assoc] at hm hbody
    -- the machine has returned, so it makes no difference what code comes next
    have hret := shows_statement hs hnd hf hfit.1 hbody hm
    exact hret

end

/-! ## From the machine to the meaning -/

/-- What a machine that returns has done at the beginning: something with the given outcomes has
ended, and the machine has come to the code that follows with fewer than `n` steps to go, or it has
returned already. -/
def Ends (calls : Callees) (body : Code) (n : Nat) (after : Code) (v : Word) (g : Globals)
    (outcome : Outcome → Prop) : Prop :=
  (∃ mem m k, k < n ∧ outcome (.next mem) ∧ Stands m after mem ∧ ReturnsIn calls body k m v g) ∨
    outcome (.returned v g)

/-- Every statement from which a machine returns in `n` steps has ended. -/
def StatementEnds (ctx : Emit.Context) (calls : Callees) (body : Code) (n : Nat) : Prop :=
  ∀ ⦃s code l l' before after m mem v g⦄, Emit.statement ctx s l = .ok code l' →
    Calls.Fit (Calls.statement s) → body = before ++ (code ++ after) →
    Stands m (code ++ after) mem → ReturnsIn calls body n m v g →
    Ends calls body n after v g (Runs ctx calls s mem)

/-- Every block from which a machine returns in `n` steps has ended. -/
def BlockEnds (ctx : Emit.Context) (calls : Callees) (body : Code) (n : Nat) : Prop :=
  ∀ ⦃block code l l' before after m mem v g⦄, Emit.statements ctx block l = .ok code l' →
    Calls.Fit (Calls.statements block) → body = before ++ (code ++ after) →
    Stands m (code ++ after) mem → ReturnsIn calls body n m v g →
    Ends calls body (n + 1) after v g (RunsAll ctx calls block mem)

/-- A statement that goes on to `after` has ended there. -/
theorem Ends.of_advances {n : Nat} {outcome : Outcome → Prop} (h : ReturnsIn calls body n m v g)
    (ho : outcome (.next mem)) (hm : Advances calls body m m') (hm' : Stands m' after mem) :
    Ends calls body n after v g outcome := by
  obtain ⟨k, hk, hr⟩ := h.of_advances hm
  exact .inl ⟨mem, m', k, hk, ho, hm', hr⟩

/-- A statement does as one of its blocks does, after which comes only the way to its end. -/
theorem Ends.of_block {n k : Nat} {inner outcome : Outcome → Prop} (hk : k < n)
    (h : Ends calls body (k + 1) rest v g inner)
    (hexit : ∀ mem m, Stands m rest mem → ∃ m', Advances calls body m m' ∧ Stands m' after mem)
    (ho : ∀ o, inner o → outcome o) : Ends calls body n after v g outcome := by
  rcases h with ⟨mem, m₁, j, hj, hin, hm₁, hr⟩ | hret
  · obtain ⟨m₂, h₂, hm₂⟩ := hexit mem m₁ hm₁
    obtain ⟨i, hi, hr₂⟩ := hr.of_advances h₂
    exact .inl ⟨mem, m₂, i, by omega, ho _ hin, hm₂, hr₂⟩
  · exact .inr (ho _ hret)

theorem statementEnds {n : Nat} (hnd : (Code.labels body).Nodup)
    (ihs : ∀ k < n, StatementEnds ctx calls body k) (ihb : ∀ k < n, BlockEnds ctx calls body k) :
    StatementEnds ctx calls body n := by
  intro s code l l' before after m mem v g he hfit hbody hm hr
  cases s with
  | assign name index value =>
    have ha := (Emit.statement_assign_eq_ok.1 he).1
    cases index with
    | none =>
      obtain ⟨s, hs, -⟩ := Emit.assign_none_eq_ok.1 ha
      obtain ⟨w, g', m', hw, h, hm'⟩ := hm.assign calls body ha hfit hs
      exact .of_advances hr (.assign hs hw) h hm'
    | some index =>
      obtain ⟨s, hs, -⟩ := Emit.assign_some_eq_ok.1 ha
      obtain ⟨offset, g₁, w, g₂, m', ho, hw, h, hm'⟩ := hm.assignEntry calls body ha hfit hs
      exact .of_advances hr (.assignEntry hs ho hw) h hm'
  | branch condition yes no =>
    obtain ⟨hfc, hfy, hfn⟩ := Calls.fit_branch.1 hfit
    obtain ⟨test, ht, first, l₁, hf, second, hs, rfl⟩ := Emit.statement_branch_eq_ok.1 he
    obtain ⟨w, g₁, m₁, hc, h₁, hyes, hno⟩ := hm.branch calls body hnd hbody ht hfc
    obtain ⟨k, hk, hr₁⟩ := hr.of_advances h₁
    by_cases hh : Holds w
    · exact .of_block hk (ihb k hk hf hfy (body_branchYes hbody) (hyes hh) hr₁)
        (fun mem m hm => hm.branchExit calls body hnd hbody) fun o ho => .branchYes hc hh ho
    · exact .of_block hk (ihb k hk hs hfn (body_branchNo hbody) (hno hh) hr₁)
        (fun mem m hm => hm.label calls body) fun o ho => .branchNo hc hh ho
  | loop condition block =>
    have hfit' := hfit
    rw [Calls.statement, Calls.fit_append] at hfit'
    obtain ⟨test, ht, inner, hi, rfl⟩ := Emit.statement_loop_eq_ok.1 he
    obtain ⟨w, g₁, m₁, hc, h₁, hyes, hno⟩ := hm.loop calls body hnd hbody ht hfit'.1
    by_cases hh : Holds w
    · obtain ⟨k, hk, hr₁⟩ := hr.of_advances h₁
      rcases ihb k hk hi hfit'.2 (body_loop hbody) (hyes hh) hr₁ with
        ⟨mem₂, m₂, k₂, hk₂, hb, hm₂, hr₂⟩ | hret
      · -- back at the beginning of the loop fewer steps are left
        obtain ⟨m₃, h₃, hm₃⟩ := hm₂.loopExit calls body hnd hbody
        obtain ⟨k₃, hk₃, hr₃⟩ := hr₂.of_advances h₃
        rcases ihs k₃ (by omega) he hfit hbody hm₃ hr₃ with
          ⟨mem₄, m₄, k₄, hk₄, hl, hm₄, hr₄⟩ | hret
        · exact .inl ⟨mem₄, m₄, k₄, by omega, .loopAgain hc hh hb hl, hm₄, hr₄⟩
        · exact .inr (.loopAgain hc hh hb hret)
      · exact .inr (.loopLeave hc hh hret)
    · exact .of_advances hr (.loopEnd hc hh) h₁ (hno hh)
  | perform c =>
    obtain ⟨⟨inner, hi, rfl⟩, -⟩ := Emit.statement_perform_eq_ok.1 he
    rw [List.append_assoc] at hm
    obtain ⟨w, g', m', hw, h, hm'⟩ := hm.perform calls body hi hfit
    exact .of_advances hr (.perform hw) h hm'
  | leave value =>
    have ha := (Emit.statement_leave_eq_ok.1 he).1
    cases value with
    | none =>
      have hvoid := hm.isVoid_of_returnsIn calls body ha hr
      obtain ⟨rfl, rfl⟩ := hr.unique (hm.leaveVoid calls body ha hvoid)
      exact .inr (.leaveVoid hvoid)
    | some e =>
      obtain ⟨w, g', hw, h⟩ := hm.leave calls body ha hfit
      obtain ⟨rfl, rfl⟩ := hr.unique h
      exact .inr (.leave hw)

theorem blockEnds {n : Nat} (hs : StatementEnds ctx calls body n)
    (ihb : ∀ k < n, BlockEnds ctx calls body k) : BlockEnds ctx calls body n := by
  intro block code l l' before after m mem v g he hfit hbody hm hr
  cases block with
  | nil =>
    obtain ⟨rfl, -⟩ := Emit.statements_nil_eq_ok.1 he
    exact .inl ⟨mem, m, n, by omega, .nil, hm, hr⟩
  | cons s block =>
    obtain ⟨first, l₁, hf, others, ho, rfl⟩ := Emit.statements_cons_eq_ok.1 he
    rw [Calls.statements, Calls.fit_append] at hfit
    rw [List.append_assoc] at hm hbody
    rcases hs hf hfit.1 hbody hm hr with ⟨mem₁, m₁, k, hk, hrun, hm₁, hr₁⟩ | hret
    · rw [← List.append_assoc] at hbody
      rcases ihb k hk ho hfit.2 hbody hm₁ hr₁ with ⟨mem₂, m₂, j, hj, hrun₂, hm₂, hr₂⟩ | hret
      · exact .inl ⟨mem₂, m₂, j, by omega, .cons hrun hrun₂, hm₂, hr₂⟩
      · exact .inr (.cons hrun hret)
    · exact .inr (.leave hret)

/-- **A machine that returns was in statements that end.** Every statement takes at least a step, so
the number of steps that are left decreases. -/
theorem ends_of_returnsIn (hnd : (Code.labels body).Nodup) (n : Nat) :
    StatementEnds ctx calls body n ∧ BlockEnds ctx calls body n := by
  induction n using Nat.strongRecOn with
  | ind n ih =>
    have hs := statementEnds hnd (fun k hk => (ih k hk).1) fun k hk => (ih k hk).2
    exact ⟨hs, blockEnds hs fun k hk => (ih k hk).2⟩

end Machine

end JackCompiler
