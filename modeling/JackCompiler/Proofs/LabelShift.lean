import JackCompiler.Proofs.RunLabels
import Mathlib.Data.List.DropRight
/-!
# The numbers of labels

Where the label counter stands when a source is compiled shows in nothing but the numbers of its
labels. With a counter that is `n` higher the same emission fails with the same error, or succeeds
with the same code, only that `n` is added to the number at the end of every label; and it leaves a
counter that is `n` higher. So what comes of a source in a run is what comes of it alone, shifted by
the counter that the sources before it leave.
-/

namespace JackCompiler

/-! ## Shifted labels -/

namespace Labels

/-- The counter moved on by `n`. -/
def shift (n : Nat) (l : Labels) : Labels :=
  ⟨n + l.next⟩

/-- The label with `n` added to the number at its end. A text that ends in no number is kept. -/
def shiftNumber (n : Nat) (name : String) : String :=
  match Text.numeral? (name.toList.rtakeWhile Char.isDigit) with
  | some k => String.ofList (name.toList.rdropWhile Char.isDigit) ++ (n + k).repr
  | none => name

/-- The digits at the end of a text are all of a part of digits that follows another character. -/
theorem rtakeWhile_append {a digits : List Char} {c : Char} (hc : ¬ c.isDigit)
    (hd : ∀ d ∈ digits, d.isDigit) :
    (a ++ c :: digits).rtakeWhile Char.isDigit = digits ∧
      (a ++ c :: digits).rdropWhile Char.isDigit = a ++ [c] := by
  have hreverse : ∀ d ∈ digits.reverse, d.isDigit := fun d h => hd d (List.mem_reverse.1 h)
  simp [List.rtakeWhile, List.rdropWhile, List.takeWhile_append_of_pos hreverse,
    List.dropWhile_append_of_pos hreverse, hc]

/-- **A label is made with its number**: shifting it is making it with the shifted counter. -/
@[simp]
theorem shiftNumber_text (n : Nat) (stem role : String) (k : Nat) :
    shiftNumber n (text stem role k) = text stem role (n + k) := by
  have hd : ∀ d ∈ k.repr.toList, d.isDigit := by
    intro d h
    rw [Nat.toList_repr] at h
    exact Nat.isDigit_of_mem_toDigits (by decide) (by decide) h
  have htext : (text stem role k).toList
      = (stem ++ "_" ++ role).toList ++ '_' :: k.repr.toList := by
    simp [text]
  obtain ⟨htake, hdrop⟩ :=
    rtakeWhile_append (a := (stem ++ "_" ++ role).toList) (c := '_') (by decide) hd
  unfold shiftNumber
  rw [htext, htake, hdrop, Nat.toList_repr, Text.numeral?_toDigits]
  simp [text, String.append_assoc]

end Labels

/-- The instruction with shifted labels. -/
def Instruction.shiftLabels (n : Nat) : Instruction → Instruction
  | label name => label (Labels.shiftNumber n name)
  | goto name => goto (Labels.shiftNumber n name)
  | ifGoto name => ifGoto (Labels.shiftNumber n name)
  | i => i

/-- The code with shifted labels. -/
def Code.shiftLabels (n : Nat) (code : Code) : Code :=
  code.map (Instruction.shiftLabels n)

namespace Code

variable {n : Nat} {code a b : Code}

@[simp]
theorem shiftLabels_nil : shiftLabels n [] = [] := rfl

@[simp]
theorem shiftLabels_cons {i : Instruction} :
    shiftLabels n (i :: code) = i.shiftLabels n :: shiftLabels n code := rfl

/-- The labels of two codes are shifted in each of them. -/
@[simp]
theorem shiftLabels_append : shiftLabels n (a ++ b) = shiftLabels n a ++ shiftLabels n b :=
  List.map_append

theorem shiftLabels_flatten {codes : List Code} :
    shiftLabels n codes.flatten = (codes.map (shiftLabels n)).flatten :=
  List.map_flatten

/-- Code without labels and jumps is not changed. -/
theorem shiftLabels_of_plain (h : code.Plain) : shiftLabels n code = code := by
  refine List.map_congr_left (fun i hi => ?_) |>.trans (List.map_id code)
  have hp := h i hi
  cases i with
  | label | goto | ifGoto => cases hp
  | _ => rfl

end Code

/-! ## Emissions from two counters -/

/-- The result with the counter moved on by `n`, and with `f` applied to what was emitted. -/
def Labels.shiftResult {ε α : Type} (n : Nat) (f : α → α) :
    EStateM.Result ε Labels α → EStateM.Result ε Labels α
  | .ok a l => .ok (f a) (l.shift n)
  | .error e l => .error e (l.shift n)

namespace Labels

variable {ε α : Type} {n : Nat} {f : α → α}

/-- The outcome of a shifted run is the shifted outcome. -/
theorem outcome_shiftResult (r : EStateM.Result ε Labels α) :
    outcome (shiftResult n f r) = (outcome r).map f := by
  cases r <;> rfl

/-- The labels after a shifted run are the shifted labels. -/
theorem after_shiftResult (r : EStateM.Result ε Labels α) :
    after (shiftResult n f r) = (after r).shift n := by
  cases r <;> rfl

end Labels

/-- From a counter that is `n` higher, the second emission does what the first does, up to `f`. -/
def Shifts {ε α : Type} (n : Nat) (f : α → α) (x y : EStateM ε Labels α) : Prop :=
  ∀ l : Labels, y (l.shift n) = Labels.shiftResult n f (x l)

namespace Shifts

variable {ε α β : Type} {n : Nat} {f : α → α} {g : β → β}

theorem pure {a b : α} (h : b = f a) :
    Shifts n f (Pure.pure a : EStateM ε Labels α) (Pure.pure b) := by
  intro l
  rw [h]
  rfl

/-- Two steps of which each is shifted are shifted together. -/
theorem bind {x y : EStateM ε Labels α} {p q : α → EStateM ε Labels β} (hx : Shifts n f x y)
    (hp : ∀ a, Shifts n g (p a) (q (f a))) : Shifts n g (x >>= p) (y >>= q) := by
  intro l
  change EStateM.bind y q (l.shift n) = Labels.shiftResult n g (EStateM.bind x p l)
  unfold EStateM.bind
  rw [hx l]
  cases x l with
  | error e l₁ => rfl
  | ok a l₁ => exact hp a l₁

/-- A step without labels is shifted if its value is not changed. -/
theorem ofExcept {x : Except ε α} (h : ∀ a, x = .ok a → f a = a) :
    Shifts n f (MonadExcept.ofExcept x : EStateM ε Labels α) (MonadExcept.ofExcept x) := by
  intro l
  cases x with
  | error e => rfl
  | ok a =>
    change EStateM.Result.ok a (l.shift n) = .ok (f a) (l.shift n)
    rw [h a rfl]

/-- The wording of errors has no labels. -/
theorem adaptExcept {ε' : Type} {e : ε → ε'} {x y : EStateM ε Labels α} (hx : Shifts n f x y) :
    Shifts n f (x.adaptExcept e) (y.adaptExcept e) := by
  intro l
  unfold EStateM.adaptExcept
  rw [hx l]
  cases x l <;> rfl

/-- Many steps of which each is shifted are shifted together. -/
theorem mapM {p : α → EStateM ε Labels β} (hp : ∀ a, Shifts n g (p a) (p a)) (xs : List α) :
    Shifts n (List.map g) (xs.mapM p) (xs.mapM p) := by
  induction xs with
  | nil => exact .pure rfl
  | cons a xs ih =>
    rw [List.mapM_cons]
    exact .bind (hp a) fun b => .bind ih fun bs => .pure rfl

/-- The pair made with the counter that is `n` higher is the shifted pair. -/
theorem freshPair (stem first second : String) :
    Shifts n (Prod.map (Labels.shiftNumber n) (Labels.shiftNumber n))
      (Emit.freshPair stem first second) (Emit.freshPair stem first second) := by
  intro l
  change EStateM.Result.ok ((l.shift n).pair stem first second).1 _
    = .ok (Prod.map _ _ (l.pair stem first second).1) _
  simp [Labels.pair, Labels.shift, Nat.add_assoc]

end Shifts

namespace Emit

variable {ctx : Context} {n : Nat}

/-- Code without labels and jumps is shifted as it is. -/
theorem shifts_of_plain {x : Except UndeclaredVariable Code}
    (h : ∀ code, x = .ok code → code.Plain) :
    Shifts n (Code.shiftLabels n) (ofExcept x : EmitM Code) (ofExcept x) :=
  .ofExcept fun code hx => Code.shiftLabels_of_plain (h code hx)

mutual

/-- **A statement is emitted alike from every counter**, up to the numbers of its labels. -/
theorem shifts_statement (n : Nat) (s : Statement) :
    Shifts n (Code.shiftLabels n) (statement ctx s) (statement ctx s) := by
  match s with
  | .assign name index value =>
    rw [statement]
    exact shifts_of_plain fun _ => plain_assign
  | .branch condition yes no =>
    rw [statement]
    refine .bind (.freshPair "IF" "FALSE" "END") fun names => ?_
    refine .bind (shifts_of_plain fun _ => plain_expr condition) fun test => ?_
    refine .bind (shifts_statements n yes) fun first => ?_
    match no with
    | some block =>
      refine .bind (shifts_statements n block) fun second => .pure ?_
      simp [Instruction.shiftLabels]
    | none =>
      have hnone : Shifts n (Code.shiftLabels n) (pure [] : EmitM Code) (pure []) := .pure rfl
      refine .bind hnone fun second => .pure ?_
      simp [Instruction.shiftLabels]
  | .loop condition body =>
    rw [statement]
    refine .bind (.freshPair "WHILE" "EXP" "END") fun names => ?_
    refine .bind (shifts_of_plain fun _ => plain_expr condition) fun test => ?_
    refine .bind (shifts_statements n body) fun code => .pure ?_
    simp [Instruction.shiftLabels]
  | .perform c =>
    rw [statement]
    refine .bind (shifts_of_plain fun _ => plain_call c) fun code => .pure ?_
    simp [Instruction.shiftLabels]
  | .leave value =>
    rw [statement]
    refine .ofExcept fun code h => ?_
    obtain ⟨inner, hi, rfl⟩ := leave_eq_append_ret h
    rw [Code.shiftLabels_append, Code.shiftLabels_of_plain (plain_of_ofExpr hi)]
    rfl

/-- **The code of a block is emitted with shifted labels** from a shifted counter. -/
theorem shifts_statements (n : Nat) (block : List Statement) :
    Shifts n (Code.shiftLabels n) (statements ctx block) (statements ctx block) := by
  match block with
  | [] =>
    rw [statements]
    exact .pure rfl
  | s :: block =>
    rw [statements]
    exact .bind (shifts_statement n s) fun first =>
      .bind (shifts_statements n block) fun others => .pure Code.shiftLabels_append.symm

end

/-- So is the code of a subroutine. -/
theorem shifts_subroutine (className : String) (t : SymbolTable) (sub : Subroutine) :
    Shifts n (Code.shiftLabels n) (subroutine className t sub) (subroutine className t sub) := by
  refine .bind (shifts_statements n sub.body) fun body => .pure ?_
  simp [Instruction.shiftLabels, Code.shiftLabels_of_plain (plain_prologue _ sub.kind)]

end Emit

/-- So is the code of a class. -/
theorem Class.shifts_emit (n : Nat) (c : Class) :
    Shifts n (Code.shiftLabels n) c.emit c.emit :=
  .bind (.mapM (Emit.shifts_subroutine c.name _) c.subroutines) fun _ =>
    .pure Code.shiftLabels_flatten.symm

/-- So is the code of a source, and its errors are the same. -/
theorem shifts_compile (n : Nat) (source : String) :
    Shifts n (Code.shiftLabels n) (compile source) (compile source) :=
  .bind (f := id) (.ofExcept fun _ _ => rfl) fun c => .adaptExcept (c.shifts_emit n)

/-! ## How far the counter moves -/

mutual

/-- How many branches and loops there are in a statement, itself included. -/
def Statement.branchings : Statement → Nat
  | .branch _ yes no => 1 + blockBranchings yes + (match no with
    | some block => blockBranchings block
    | none => 0)
  | .loop _ body => 1 + blockBranchings body
  | _ => 0

/-- How many branches and loops there are in a block. -/
def Statement.blockBranchings : List Statement → Nat
  | [] => 0
  | s :: block => s.branchings + blockBranchings block

end

/-- How many branches and loops there are in a class. -/
def Class.branchings (c : Class) : Nat :=
  Statement.blockBranchings (c.subroutines.flatMap Subroutine.body)

open Statement (blockBranchings)

theorem Statement.blockBranchings_append (a b : List Statement) :
    blockBranchings (a ++ b) = blockBranchings a + blockBranchings b := by
  induction a with
  | nil => simp [blockBranchings]
  | cons s a ih => simp [blockBranchings, ih, Nat.add_assoc]

namespace Emit

variable {ctx : Context} {code : Code} {l l' : Labels}

mutual

/-- **A statement takes one number for each branch and each loop.** -/
theorem next_statement (s : Statement) {code : Code} {l l' : Labels}
    (he : statement ctx s l = .ok code l') : l'.next = l.next + s.branchings := by
  match s with
  | .assign name index value =>
    obtain ⟨-, rfl⟩ := statement_assign_eq_ok.1 he
    rfl
  | .branch condition yes no =>
    obtain ⟨test, -, first, l₁, hf, second, hs, -⟩ := statement_branch_eq_ok.1 he
    have hfirst := next_statements yes hf
    match no, hs with
    | none, hs =>
      obtain ⟨-, rfl⟩ := statements_nil_eq_ok.1 hs
      simp only [Statement.branchings] at hfirst ⊢
      omega
    | some block, hs =>
      have hsecond := next_statements block hs
      simp only [Statement.branchings] at hfirst ⊢
      omega
  | .loop condition body =>
    obtain ⟨test, -, inner, hi, -⟩ := statement_loop_eq_ok.1 he
    have hinner := next_statements body hi
    simp only [Statement.branchings] at hinner ⊢
    omega
  | .perform c =>
    obtain ⟨-, rfl⟩ := statement_perform_eq_ok.1 he
    rfl
  | .leave value =>
    obtain ⟨-, rfl⟩ := statement_leave_eq_ok.1 he
    rfl

/-- A block takes one number for each branch and each loop. -/
theorem next_statements (block : List Statement) {code : Code} {l l' : Labels}
    (he : statements ctx block l = .ok code l') : l'.next = l.next + blockBranchings block := by
  match block with
  | [] =>
    obtain ⟨-, rfl⟩ := statements_nil_eq_ok.1 he
    rfl
  | s :: block =>
    obtain ⟨first, l₁, hf, others, ho, -⟩ := statements_cons_eq_ok.1 he
    have hfirst := next_statement s hf
    have hothers := next_statements block ho
    simp only [blockBranchings]
    omega

end

/-- So do the subroutines of a class, one after the other. -/
theorem next_subroutines (c : Class) (subs : List Subroutine) {codes : List Code} {l l' : Labels}
    (h : subs.mapM (subroutine c.name (classSymbols c)) l = .ok codes l') :
    l'.next = l.next + blockBranchings (subs.flatMap Subroutine.body) := by
  induction subs generalizing l codes with
  | nil =>
    obtain ⟨-, rfl⟩ := Fallible.run_pure_eq_ok.1 h
    rfl
  | cons sub subs ih =>
    rw [List.mapM_cons] at h
    obtain ⟨code, l₁, hc, h⟩ := Fallible.run_bind_eq_ok.1 h
    obtain ⟨others, l₂, ho, h⟩ := Fallible.run_bind_eq_ok.1 h
    obtain ⟨-, rfl⟩ := Fallible.run_pure_eq_ok.1 h
    obtain ⟨inner, hi, -⟩ := subroutine_eq_ok.1 hc
    have hfirst := next_statements sub.body hi
    have hothers := ih ho
    rw [List.flatMap_cons, Statement.blockBranchings_append]
    omega

end Emit

/-- A class takes one number for each branch and each loop. -/
theorem Class.next_emit {c : Class} {code : Code} {l l' : Labels} (he : c.emit l = .ok code l') :
    l'.next = l.next + c.branchings :=
  Emit.next_subroutines c c.subroutines (Class.emit_eq_ok he).2

/-! ## The sources of a run -/

open Labels (after outcome shiftResult)

/-- What comes of a source alone, with the first label numbered zero. -/
abbrev compileAlone (source : String) : EStateM.Result CompileError Labels Code :=
  compile source ⟨0⟩

/-- What a source compiles to behind others is what it compiles to alone, shifted. -/
theorem compile_eq_shiftResult (source : String) (l : Labels) :
    compile source l = shiftResult l.next (Code.shiftLabels l.next) (compileAlone source) :=
  shifts_compile l.next source ⟨0⟩

/-- The sources of a run are compiled in order, each with the counter that those before it leave. -/
theorem getElem?_compileEach {sources : List String} {i : Nat} {source : String} (l : Labels)
    (hi : sources[i]? = some source) :
    (compileEach sources l).1[i]?
        = some (outcome (compile source (compileEach (sources.take i) l).2)) ∧
      (compileEach (sources.take (i + 1)) l).2
        = after (compile source (compileEach (sources.take i) l).2) := by
  induction sources generalizing i l with
  | nil => cases hi
  | cons first sources ih =>
    cases i with
    | zero =>
      cases hi
      exact ⟨by rw [compileEach_cons]; rfl, by rw [List.take_succ_cons, compileEach_cons]; rfl⟩
    | succ i =>
      have hrest := ih (after (compile first l)) hi
      simpa only [List.take_succ_cons, compileEach_cons, List.getElem?_cons_succ] using hrest

/-- A source that spells no class takes no labels. -/
theorem after_compile_of_error {source : String} {e : CompileError} (l : Labels)
    (h : Class.ofSource source = .error e) : after (compile source l) = l := by
  have hfails : compile source l = .error e l := compile_eq_error.2 (.inl ⟨h, rfl⟩)
  rw [hfails]
  rfl

/-- **The sources of a run influence each other only through the numbers of labels.** From a counter
at `n` a class fails with the error that it has from zero, or it has the code that it has from zero
with `n` added to the number of every label, and the counter ends `n` higher; where it has code, the
counter has moved on by the number of its branches and loops. So what comes of a source in a run is
what comes of it alone, shifted by the counter that the sources before it leave, also those that
fail; and a source that spells no class leaves the counter where it was. -/
theorem compileEach_shiftLabels :
    (∀ (c : Class) (n : Nat),
      c.emit ⟨n⟩ = shiftResult n (Code.shiftLabels n) (c.emit ⟨0⟩) ∧
        ∀ code l, c.emit ⟨n⟩ = .ok code l → l.next = n + c.branchings) ∧
    ∀ (sources : List String) (labels : Labels) (i : Nat) (source : String),
      sources[i]? = some source →
        ∃ n, (compileEach (sources.take i) labels).2 = ⟨n⟩ ∧
          (compileEach sources labels).1[i]?
            = some ((outcome (compileAlone source)).map (Code.shiftLabels n)) ∧
          (compileEach (sources.take (i + 1)) labels).2
            = ⟨n + (after (compileAlone source)).next⟩ ∧
          ∀ e, Class.ofSource source = .error e →
            (compileEach (sources.take (i + 1)) labels).2 = ⟨n⟩ := by
  refine ⟨fun c n => ⟨c.shifts_emit n ⟨0⟩, fun code l he => Class.next_emit he⟩, ?_⟩
  intro sources labels i source hi
  obtain ⟨hresult, hcounter⟩ := getElem?_compileEach labels hi
  refine ⟨(compileEach (sources.take i) labels).2.next, rfl, ?_, ?_, ?_⟩
  · rw [hresult, compile_eq_shiftResult, Labels.outcome_shiftResult]
  · rw [hcounter, compile_eq_shiftResult, Labels.after_shiftResult]
    rfl
  · intro e he
    rw [hcounter, after_compile_of_error _ he]

/-- A source with one branch. -/
def branchingSource : String :=
  "class C \x7b function int g() \x7b if (true) \x7b return 1; \x7d return 2; \x7d \x7d"

/-- A run of three sources: one takes a label and then fails, one spells no class, and the last has
code with labels. -/
def mixedRun : List String :=
  ["class A \x7b function void f() \x7b while (x) \x7b \x7d return; \x7d \x7d", "class B \x7b",
    branchingSource]

/-- The third code of the run has the labels of the source alone, shifted past the label that the
first source took. -/
theorem mixedRun_shifted :
    mixedRun[2]? = some branchingSource ∧
      outcome (compileAlone branchingSource) = .ok
        [.function "C.g" 0, .push .constant 1, .compute .neg, .compute .not, .ifGoto "IF_FALSE_0",
          .push .constant 1, .ret, .goto "IF_END_0", .label "IF_FALSE_0", .label "IF_END_0",
          .push .constant 2, .ret] ∧
      (compileEach mixedRun ⟨0⟩).1[2]? = some (.ok
        [.function "C.g" 0, .push .constant 1, .compute .neg, .compute .not, .ifGoto "IF_FALSE_1",
          .push .constant 1, .ret, .goto "IF_END_1", .label "IF_FALSE_1", .label "IF_END_1",
          .push .constant 2, .ret]) := by
  have halone : outcome (compileAlone branchingSource) = .ok
      [.function "C.g" 0, .push .constant 1, .compute .neg, .compute .not, .ifGoto "IF_FALSE_0",
        .push .constant 1, .ret, .goto "IF_END_0", .label "IF_FALSE_0", .label "IF_END_0",
        .push .constant 2, .ret] := by
    decide +kernel
  have hearlier : (compileEach (mixedRun.take 2) ⟨0⟩).2 = ⟨1⟩ := by
    decide +kernel
  obtain ⟨n, hn, hresult, -⟩ := compileEach_shiftLabels.2 mixedRun ⟨0⟩ 2 branchingSource rfl
  obtain rfl : n = 1 := congrArg Labels.next (hn.symm.trans hearlier)
  refine ⟨rfl, halone, ?_⟩
  rw [hresult, halone]
  decide +kernel

end JackCompiler
