import JackCompiler.Instruction.Basic
import Mathlib.Logic.Function.Basic
/-!
# The stack machine

What the instructions do. A machine runs one function: it holds the instructions that are still to
be run, the function's operand stack, and the memory segments. Static cells and the heap are shared
by all functions and make up the global state; `this` and `that` are windows into the heap whose
beginnings are kept in `pointer`.

Calls are not run here. What a called function does is a parameter (`Callees`): any function of its
name, its arguments and the global state. The machine stops at `return`, and it has no next step
either where an instruction finds too few operands or no label to go to.
-/

namespace JackCompiler

/-- A machine word. -/
abbrev Word := UInt16

/-- The memory that all functions share. -/
structure Globals where
  statics : Word → Word
  heap : Word → Word

/-- The memory that a running function has for itself: its cells and its object, which is where
`this` begins. -/
structure Frame where
  locals : Word → Word
  arguments : Word → Word
  this : Word

/-- What the called functions do. -/
structure Callees where
  /-- The result of a call and the global state after it. -/
  answer : String → List Word → Globals → Word × Globals
  /-- What a call makes of the temporary cells. -/
  temps : String → List Word → Globals → (Word → Word) → Word → Word

/-- No call changes a temporary cell. -/
def Callees.KeepTemps (calls : Callees) : Prop :=
  ∀ name args globals temps, calls.temps name args globals temps = temps

/-- A function in the middle of its run. -/
structure Machine where
  /-- The instructions that come next, up to the end of the function. -/
  rest : Code
  /-- The operand stack, top first. -/
  stack : List Word
  frame : Frame
  /-- Where `that` begins. -/
  that : Word
  temps : Word → Word
  globals : Globals

/-! ## Single instructions -/

/-- The word for a truth value. -/
def Word.ofBool (b : Bool) : Word :=
  if b then 0xFFFF else 0

/-- Is the first word below the second as a signed number? -/
def Word.signedLt (a b : Word) : Bool :=
  a.toInt16 < b.toInt16

/-- The stack after an operation, if it holds the operands. The second operand is on top. -/
def Operation.apply : Operation → List Word → Option (List Word)
  | add, b :: a :: stack => some ((a + b) :: stack)
  | sub, b :: a :: stack => some ((a - b) :: stack)
  | neg, a :: stack => some ((-a) :: stack)
  | eq, b :: a :: stack => some (Word.ofBool (a == b) :: stack)
  | gt, b :: a :: stack => some (Word.ofBool (Word.signedLt b a) :: stack)
  | lt, b :: a :: stack => some (Word.ofBool (Word.signedLt a b) :: stack)
  | and, b :: a :: stack => some ((a &&& b) :: stack)
  | or, b :: a :: stack => some ((a ||| b) :: stack)
  | not, a :: stack => some ((~~~a) :: stack)
  | _, _ => none

/-- The code of a function from a label on. -/
def Code.atLabel (name : String) : Code → Option Code
  | [] => none
  | i :: rest => if i = .label name then some (i :: rest) else atLabel name rest

namespace Machine

/-- How many temporary cells there are. -/
def tempCells : Word := 8

/-- The word in a cell. -/
def read (m : Machine) : Segment → Word → Option Word
  | .constant, i => some i
  | .argument, i => some (m.frame.arguments i)
  | .local, i => some (m.frame.locals i)
  | .static, i => some (m.globals.statics i)
  | .this, i => some (m.globals.heap (m.frame.this + i))
  | .that, i => some (m.globals.heap (m.that + i))
  | .pointer, i => if i = 0 then some m.frame.this else if i = 1 then some m.that else none
  | .temp, i => if i < tempCells then some (m.temps i) else none

/-- The machine with a word put on the heap. -/
def store (m : Machine) (address v : Word) : Machine :=
  { m with globals := { m.globals with heap := Function.update m.globals.heap address v } }

/-- The machine with a word put into a cell. A constant cannot be written. -/
def write (m : Machine) (v : Word) : Segment → Word → Option Machine
  | .constant, _ => none
  | .argument, i =>
    some { m with frame := { m.frame with arguments := Function.update m.frame.arguments i v } }
  | .local, i =>
    some { m with frame := { m.frame with locals := Function.update m.frame.locals i v } }
  | .static, i =>
    some { m with globals := { m.globals with statics := Function.update m.globals.statics i v } }
  | .this, i => some (m.store (m.frame.this + i) v)
  | .that, i => some (m.store (m.that + i) v)
  | .pointer, i =>
    if i = 0 then some { m with frame := { m.frame with this := v } }
    else if i = 1 then some { m with that := v } else none
  | .temp, i => if i < tempCells then some { m with temps := Function.update m.temps i v } else none

/-- Takes `n` arguments off the stack, the last one from its top, and puts the result there. -/
def call (calls : Callees) (name : String) (n : Nat) (m : Machine) : Option Machine :=
  if n ≤ m.stack.length then
    let args := (m.stack.take n).reverse
    let (v, globals) := calls.answer name args m.globals
    some { m with
      stack := v :: m.stack.drop n
      globals
      temps := calls.temps name args m.globals m.temps }
  else none

/-- One step in a function with the given code. `return` is the last instruction of a run, so it
has none. -/
def step (calls : Callees) (body : Code) (m : Machine) : Option Machine :=
  match m.rest with
  | [] => none
  | .push segment i :: rest => do
    let v ← m.read segment i
    return { m with rest, stack := v :: m.stack }
  | .pop segment i :: rest =>
    match m.stack with
    | [] => none
    | v :: stack => write { m with rest, stack } v segment i
  | .compute op :: rest => do
    let stack ← op.apply m.stack
    return { m with rest, stack }
  | .label _ :: rest => some { m with rest }
  | .goto name :: _ => do
    let rest ← body.atLabel name
    return { m with rest }
  | .ifGoto name :: rest =>
    match m.stack with
    | [] => none
    | v :: stack =>
      if v = 0 then some { m with rest, stack }
      else do
        let rest ← body.atLabel name
        return { m with rest, stack }
  | .call name n :: rest => call calls name n.toNat { m with rest }
  | .function _ n :: rest =>
    let locals i := if i < n then 0 else m.frame.locals i
    some { m with rest, frame := { m.frame with locals } }
  | .ret :: _ => none

/-- The machine after `n` steps. -/
def run (calls : Callees) (body : Code) : Nat → Machine → Option Machine
  | 0, m => some m
  | n + 1, m => (step calls body m).bind (run calls body n)

/-- The machine comes from one state to another. -/
def Reaches (calls : Callees) (body : Code) (m m' : Machine) : Prop :=
  ∃ n, run calls body n m = some m'

/-- What a machine that stands at a `return` gives back: the top of its stack, and with it the
global state. -/
def result? (m : Machine) : Option (Word × Globals) :=
  match m.rest, m.stack with
  | .ret :: _, v :: _ => some (v, m.globals)
  | _, _ => none

/-- The function returns after `n` steps. -/
def ReturnsIn (calls : Callees) (body : Code) (n : Nat) (m : Machine) (v : Word) (g : Globals) :
    Prop :=
  ∃ m', run calls body n m = some m' ∧ m'.result? = some (v, g)

/-- The function returns with a word and leaves a global state behind. -/
def Returns (calls : Callees) (body : Code) (m : Machine) (v : Word) (g : Globals) : Prop :=
  ∃ n, ReturnsIn calls body n m v g

/-- The machine comes from one state to another by at least one step. -/
def Advances (calls : Callees) (body : Code) (m m' : Machine) : Prop :=
  ∃ m₁, Reaches calls body m m₁ ∧ step calls body m₁ = some m'

/-! ## Runs -/

variable {calls : Callees} {body : Code} {m m₁ m' : Machine} {v : Word} {g : Globals}

/-- The steps of a run can be made in two parts. -/
theorem run_add (a b : Nat) (m : Machine) :
    run calls body (a + b) m = (run calls body a m).bind (run calls body b) := by
  induction a generalizing m with
  | zero => rw [Nat.zero_add]; rfl
  | succ a ih =>
    rw [Nat.succ_add]
    simp only [run]
    cases step calls body m with
    | none => rfl
    | some m₁ => exact ih m₁

theorem Reaches.refl (m : Machine) : Reaches calls body m m := ⟨0, rfl⟩

/-- What is reached from a state that is reached is reached. -/
theorem Reaches.trans (h : Reaches calls body m m₁) (h' : Reaches calls body m₁ m') :
    Reaches calls body m m' := by
  obtain ⟨a, ha⟩ := h
  obtain ⟨b, hb⟩ := h'
  refine ⟨a + b, ?_⟩
  rw [run_add, ha]
  exact hb

theorem Reaches.of_step (h : step calls body m = some m') : Reaches calls body m m' :=
  ⟨1, by simp [run, h]⟩

/-- A machine that advances to a state reaches it. -/
theorem Advances.reaches (h : Advances calls body m m') : Reaches calls body m m' := by
  obtain ⟨m₁, h₁, hs⟩ := h
  exact h₁.trans (.of_step hs)

theorem Advances.of_step (h : step calls body m = some m') : Advances calls body m m' :=
  ⟨m, .refl m, h⟩

/-- A step behind a run makes it one of at least one step. -/
theorem Reaches.advances (h : Reaches calls body m m₁) (h' : Advances calls body m₁ m') :
    Advances calls body m m' := by
  obtain ⟨m₂, h₂, hs⟩ := h'
  exact ⟨m₂, h.trans h₂, hs⟩

theorem Advances.trans (h : Advances calls body m m₁) (h' : Advances calls body m₁ m') :
    Advances calls body m m' :=
  h.reaches.advances h'

/-- A machine that has a result is at its end. -/
theorem step_eq_none_of_result? (h : m.result? = some (v, g)) : step calls body m = none := by
  unfold result? at h
  split at h
  · next hrest _ => simp [step, hrest]
  · cases h

/-- **A run that returns passes through every state the machine reaches**, so the rest of it
returns the same. -/
theorem ReturnsIn.of_run {k n : Nat} (h : ReturnsIn calls body n m v g)
    (hk : run calls body k m = some m₁) : k ≤ n ∧ ReturnsIn calls body (n - k) m₁ v g := by
  obtain ⟨m', hn, hres⟩ := h
  rcases Nat.lt_or_ge n k with hlt | hle
  · -- the machine cannot go on from its last state
    obtain ⟨d, rfl⟩ : ∃ d, k = n + (d + 1) := ⟨k - n - 1, by omega⟩
    rw [run_add, hn] at hk
    simp [run, step_eq_none_of_result? hres] at hk
  · obtain ⟨d, rfl⟩ : ∃ d, n = k + d := ⟨n - k, by omega⟩
    rw [run_add, hk] at hn
    exact ⟨hle, m', by rwa [Nat.add_sub_cancel_left], hres⟩

/-- Each step brings a machine nearer to its return. -/
theorem ReturnsIn.of_advances {n : Nat} (h : ReturnsIn calls body n m v g)
    (hm : Advances calls body m m') : ∃ k < n, ReturnsIn calls body k m' v g := by
  obtain ⟨m₁, ⟨k, hk⟩, hs⟩ := hm
  have hk' : run calls body (k + 1) m = some m' := by
    rw [run_add, hk]
    simp [run, hs]
  obtain ⟨hle, hr⟩ := h.of_run hk'
  exact ⟨n - (k + 1), by omega, hr⟩

/-- A machine returns what it returns from a later state. -/
theorem Returns.of_reaches (hm : Reaches calls body m m') (h : Returns calls body m' v g) :
    Returns calls body m v g := by
  obtain ⟨k, hk⟩ := hm
  obtain ⟨n, m₁, hn, hres⟩ := h
  refine ⟨k + n, m₁, ?_, hres⟩
  rw [run_add, hk]
  exact hn

/-- A machine returns at most once. -/
theorem ReturnsIn.unique {n : Nat} {w : Word} {g' : Globals} (h : ReturnsIn calls body n m v g)
    (h' : Returns calls body m w g') : v = w ∧ g = g' := by
  obtain ⟨k, m', hk, hres⟩ := h'
  obtain ⟨-, m₁, hrun, hres₁⟩ := h.of_run hk
  -- the second run ends where the first does, since neither can be longer
  have hend : n - k = 0 := by
    by_contra hne
    obtain ⟨d, hd⟩ : ∃ d, n - k = d + 1 := ⟨n - k - 1, by omega⟩
    rw [hd] at hrun
    simp [run, step_eq_none_of_result? hres] at hrun
  rw [hend] at hrun
  obtain rfl : m' = m₁ := Option.some.inj hrun
  rw [hres] at hres₁
  simpa [eq_comm] using hres₁

theorem Returns.of_result? (h : m.result? = some (v, g)) : Returns calls body m v g :=
  ⟨0, m, rfl, h⟩

end Machine

/-! ## Labels -/

/-- The label that an instruction marks. -/
def Instruction.label? : Instruction → Option String
  | label name => some name
  | _ => none

/-- The labels that the code marks, in order. -/
def Code.labels (code : Code) : List String :=
  code.filterMap Instruction.label?

@[simp]
theorem Code.labels_nil : Code.labels [] = [] := rfl

/-- The labels of two codes stand one after the other. -/
@[simp]
theorem Code.labels_append (a b : Code) : Code.labels (a ++ b) = Code.labels a ++ Code.labels b :=
  List.filterMap_append

@[simp]
theorem Code.labels_cons (i : Instruction) (code : Code) :
    Code.labels (i :: code) = i.label?.toList ++ Code.labels code := by
  cases h : i.label? <;> simp [Code.labels, h]

/-- The code goes on at the first mark of a label. -/
theorem Code.atLabel_eq {name : String} {before rest : Code} (h : name ∉ Code.labels before) :
    Code.atLabel name (before ++ .label name :: rest) = some (.label name :: rest) := by
  induction before with
  | nil => simp [Code.atLabel]
  | cons i before ih =>
    rw [Code.labels_cons, List.mem_append, not_or] at h
    have hi : i ≠ .label name := by
      rintro rfl
      exact h.1 (by simp [Instruction.label?])
    rw [List.cons_append, Code.atLabel, if_neg hi]
    exact ih h.2

end JackCompiler
