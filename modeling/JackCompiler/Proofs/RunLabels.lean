import JackCompiler.Compile
import JackCompiler.Proofs.SubroutineCode
import Mathlib.Data.List.Nodup
/-!
# The labels of a run

The sources of a run share one label counter. It never goes back, not even where a source fails, so
the labels of a source lie in a range of numbers of its own, and no two codes of a run mark the same
label. Inside a function a jump goes to a label that the same statement marks, so no jump leaves its
function.
-/

namespace JackCompiler

/-! ## Where jumps go -/

/-- The label that an instruction may jump to. -/
def Instruction.target? : Instruction → Option String
  | goto name => some name
  | ifGoto name => some name
  | _ => none

/-- The labels that the code may jump to, in order. -/
def Code.targets (code : Code) : List String :=
  code.filterMap Instruction.target?

@[simp]
theorem Code.targets_append (a b : Code) :
    Code.targets (a ++ b) = Code.targets a ++ Code.targets b :=
  List.filterMap_append

@[simp]
theorem Code.targets_cons (i : Instruction) (code : Code) :
    Code.targets (i :: code) = i.target?.toList ++ Code.targets code := by
  cases h : i.target? <;> simp [Code.targets, h]

@[simp]
theorem Code.targets_nil : Code.targets [] = [] := rfl

/-- Code without labels and jumps has no targets. -/
theorem Code.targets_of_plain {code : Code} (h : code.Plain) : Code.targets code = [] := by
  refine List.filterMap_eq_nil_iff.2 fun i hi => ?_
  have hp := h i hi
  cases i with
  | goto | ifGoto => cases hp
  | _ => rfl

/-- Every instruction stands in a function, and every jump goes to a label that the code marks
exactly once, in the function of the jump. -/
structure Code.JumpsInside (code : Code) : Prop where
  flatten_functions : code.functions.flatten = code
  target : ∀ body ∈ code.functions, ∀ name ∈ body.targets,
    name ∈ body.labels ∧ code.labels.count name = 1

namespace Emit

open Labels (Fresh)

variable {ctx : Context}

/-- A branch jumps to its own two labels, and where its blocks jump. -/
theorem targets_branchCode {n : Nat} {test first second : Code} (h : test.Plain) :
    Code.targets (branchCode n test first second) = Labels.text "IF" "FALSE" n
      :: (Code.targets first ++ Labels.text "IF" "END" n :: Code.targets second) := by
  simp [branchCode, Code.targets_of_plain h, Instruction.target?]

/-- A loop jumps to its own two labels, and where its body jumps. -/
theorem targets_loopCode {n : Nat} {test inner : Code} (h : test.Plain) :
    Code.targets (loopCode n test inner) = Labels.text "WHILE" "END" n
      :: (Code.targets inner ++ [Labels.text "WHILE" "EXP" n]) := by
  simp [loopCode, Code.targets_of_plain h, Instruction.target?]

mutual

/-- **A statement jumps only to labels that it marks.** -/
theorem targets_statement (s : Statement) {code : Code} {l l' : Labels}
    (he : statement ctx s l = .ok code l') : Code.targets code ⊆ Code.labels code := by
  match s with
  | .assign name index value =>
    obtain ⟨ha, -⟩ := statement_assign_eq_ok.1 he
    rw [Code.targets_of_plain (plain_assign ha)]
    exact List.nil_subset _
  | .branch condition yes no =>
    obtain ⟨test, ht, first, l₁, hf, second, hs, rfl⟩ := statement_branch_eq_ok.1 he
    have hfirst := targets_statements yes hf
    have hsecond : Code.targets second ⊆ Code.labels second := by
      match no, hs with
      | none, hs =>
        obtain ⟨rfl, -⟩ := statements_nil_eq_ok.1 hs
        exact List.nil_subset _
      | some block, hs => exact targets_statements block hs
    have hplain := plain_expr condition ht
    rw [targets_branchCode hplain, labels_branchCode hplain]
    intro name hname
    simp only [List.mem_cons, List.mem_append, List.not_mem_nil, or_false] at hname ⊢
    rcases hname with hname | hname | hname | hname
    · exact .inr (.inl hname)
    · exact .inl (hfirst hname)
    · exact .inr (.inr (.inr hname))
    · exact .inr (.inr (.inl (hsecond hname)))
  | .loop condition body =>
    obtain ⟨test, ht, inner, hi, rfl⟩ := statement_loop_eq_ok.1 he
    have hinner := targets_statements body hi
    have hplain := plain_expr condition ht
    rw [targets_loopCode hplain, labels_loopCode hplain]
    intro name hname
    simp only [List.mem_cons, List.mem_append, List.not_mem_nil, or_false] at hname ⊢
    rcases hname with hname | hname | hname
    · exact .inr (.inr hname)
    · exact .inr (.inl (hinner hname))
    · exact .inl hname
  | .perform c =>
    obtain ⟨⟨inner, hi, rfl⟩, -⟩ := statement_perform_eq_ok.1 he
    rw [Code.targets_append, Code.targets_of_plain (plain_call c hi)]
    exact List.nil_subset _
  | .leave value =>
    obtain ⟨inner, hi, rfl⟩ := leave_eq_append_ret (statement_leave_eq_ok.1 he).1
    rw [Code.targets_append, Code.targets_of_plain (plain_of_ofExpr hi)]
    exact List.nil_subset _

/-- **The jumps of a block go to labels of the block.** -/
theorem targets_statements (block : List Statement) {code : Code} {l l' : Labels}
    (he : statements ctx block l = .ok code l') : Code.targets code ⊆ Code.labels code := by
  match block with
  | [] =>
    obtain ⟨rfl, -⟩ := statements_nil_eq_ok.1 he
    exact List.nil_subset _
  | s :: block =>
    obtain ⟨first, l₁, hf, others, ho, rfl⟩ := statements_cons_eq_ok.1 he
    have hfirst := targets_statement s hf
    have hothers := targets_statements block ho
    rw [Code.targets_append, Code.labels_append]
    exact List.append_subset.2 ⟨List.subset_append_of_subset_left _ hfirst,
      List.subset_append_of_subset_right _ hothers⟩

end

/-! ## Labels of a class -/

/-- There are no labels and jumps before the statements of a subroutine. -/
theorem plain_prologue (t : SymbolTable) (kind : SubroutineKind) :
    Code.Plain (prologue t kind) := by
  cases kind <;> simp [prologue, Instruction.isPlain]

/-- Only the statements of a subroutine mark labels and jump. -/
theorem labels_subroutine {c : Class} {sub : Subroutine} {body : Code} {l l' : Labels}
    (he : subroutine c.name (classSymbols c) sub l = .ok body l') :
    Fresh l.next l'.next (Code.labels body) ∧ Code.targets body ⊆ Code.labels body := by
  obtain ⟨inner, hi, rfl⟩ := subroutine_eq_ok.1 he
  have hplain := plain_prologue (Meaning.context c sub).symbols sub.kind
  simp only [Code.labels_cons, Code.labels_append, Code.labels_of_plain hplain, Code.targets_cons,
    Code.targets_append, Code.targets_of_plain hplain, Instruction.label?, Instruction.target?,
    Option.toList_none, List.nil_append]
  exact ⟨fresh_statements sub.body hi, targets_statements sub.body hi⟩

/-- Labels that are fresh in each code are fresh in all of them together. -/
theorem fresh_mapM {α : Type} {f : α → EmitM Code}
    (hf : ∀ a code l l', f a l = .ok code l' → Fresh l.next l'.next (Code.labels code))
    (xs : List α) {codes : List Code} {l l' : Labels} (h : xs.mapM f l = .ok codes l') :
    Fresh l.next l'.next (Code.labels codes.flatten) := by
  induction xs generalizing l codes with
  | nil =>
    obtain ⟨rfl, rfl⟩ := Fallible.run_pure_eq_ok.1 h
    exact .nil (Nat.le_refl _)
  | cons a xs ih =>
    rw [List.mapM_cons] at h
    obtain ⟨code, l₁, hc, h⟩ := Fallible.run_bind_eq_ok.1 h
    obtain ⟨others, l₂, ho, h⟩ := Fallible.run_bind_eq_ok.1 h
    obtain ⟨rfl, rfl⟩ := Fallible.run_pure_eq_ok.1 h
    rw [List.flatten_cons, Code.labels_append]
    exact (hf a code l l₁ hc).append (ih ho)

end Emit

open Labels (Fresh)

/-- The labels of a class have the numbers that it takes. -/
theorem Class.fresh_emit {c : Class} {code : Code} {l l' : Labels} (he : c.emit l = .ok code l') :
    Fresh l.next l'.next (Code.labels code) := by
  obtain ⟨hflatten, hm⟩ := Class.emit_eq_ok he
  have h := Emit.fresh_mapM (fun _ _ _ _ hs => (Emit.labels_subroutine hs).1) c.subroutines hm
  rwa [hflatten] at h

/-- The labels of many codes are those of each of them. -/
theorem Code.mem_labels_flatten {codes : List Code} {name : String} :
    name ∈ Code.labels codes.flatten ↔ ∃ code ∈ codes, name ∈ Code.labels code := by
  simp only [Code.labels, List.filterMap_flatten, List.mem_flatten, List.mem_map,
    exists_exists_and_eq_and]

/-- **No jump of a class leaves its function.** -/
theorem Class.jumpsInside_emit {c : Class} {code : Code} {l l' : Labels}
    (he : c.emit l = .ok code l') : code.JumpsInside := by
  have hflatten := (Class.emit_eq_ok he).1
  have hinside : ∀ body ∈ code.functions, body.targets ⊆ body.labels := by
    refine forall_mem_of_forall₂ ?_ (Class.forall₂_functions he)
    rintro sub - body ⟨l₁, l₂, hs⟩
    exact (Emit.labels_subroutine hs).2
  refine ⟨hflatten, ?_⟩
  intro body hbody name hname
  have hmarked : name ∈ body.labels := hinside body hbody hname
  refine ⟨hmarked, List.count_eq_one_of_mem (Class.fresh_emit he).nodup ?_⟩
  rw [← hflatten]
  exact Code.mem_labels_flatten.2 ⟨body, hbody, hmarked⟩

/-! ## The counter does not go back -/

/-- The counter after an emission, whatever came of it. -/
def Labels.after {ε α : Type} : EStateM.Result ε Labels α → Labels
  | .ok _ l => l
  | .error _ l => l

/-- What comes of an emission, without the counter. -/
def Labels.outcome {ε α : Type} : EStateM.Result ε Labels α → Except ε α
  | .ok a _ => .ok a
  | .error e _ => .error e

/-- An emission succeeds if its outcome is code. -/
theorem Labels.eq_ok {ε α : Type} {r : EStateM.Result ε Labels α} {a : α} {l : Labels}
    (houtcome : outcome r = .ok a) (hafter : after r = l) : r = .ok a l := by
  cases r with
  | ok b l₁ =>
    cases houtcome
    cases hafter
    rfl
  | error e l₁ => cases houtcome

/-- The counter does not go back, whatever comes of the emission. -/
def Climbs {ε α : Type} (x : EStateM ε Labels α) : Prop :=
  ∀ l, l.next ≤ (Labels.after (x l)).next

namespace Climbs

variable {ε α β : Type}

theorem pure (a : α) : Climbs (Pure.pure a : EStateM ε Labels α) :=
  fun l => Nat.le_refl l.next

/-- Two steps that do not move the counter back do not do so together. -/
theorem bind {x : EStateM ε Labels α} {f : α → EStateM ε Labels β} (hx : Climbs x)
    (hf : ∀ a, Climbs (f a)) : Climbs (x >>= f) := by
  intro l
  have hl := hx l
  change l.next ≤ (Labels.after (EStateM.bind x f l)).next
  unfold EStateM.bind
  cases hr : x l with
  | error e l₁ =>
    rw [hr] at hl
    exact hl
  | ok a l₁ =>
    rw [hr] at hl
    exact Nat.le_trans hl (hf a l₁)

theorem ofExcept (x : Except ε α) : Climbs (MonadExcept.ofExcept x : EStateM ε Labels α) := by
  intro l
  cases x <;> exact Nat.le_refl l.next

/-- The wording of errors does not move the counter. -/
theorem adaptExcept {ε' : Type} (f : ε → ε') {x : EStateM ε Labels α} (hx : Climbs x) :
    Climbs (x.adaptExcept f) := by
  intro l
  have hl := hx l
  unfold EStateM.adaptExcept
  cases hr : x l with
  | error e l₁ =>
    rw [hr] at hl
    exact hl
  | ok a l₁ =>
    rw [hr] at hl
    exact hl

/-- Taking a pair of labels does not move the counter back. -/
theorem freshPair (stem first second : String) : Climbs (Emit.freshPair stem first second) :=
  fun l => Nat.le_succ l.next

/-- Many steps that do not move the counter back do not do so together. -/
theorem mapM {f : α → EStateM ε Labels β} (hf : ∀ a, Climbs (f a)) (xs : List α) :
    Climbs (xs.mapM f) := by
  induction xs with
  | nil => exact .pure []
  | cons a xs ih =>
    rw [List.mapM_cons]
    exact .bind (hf a) fun b => .bind ih fun bs => .pure (b :: bs)

end Climbs

namespace Emit

mutual

/-- **A statement never moves the counter back**, whether it has code or not. -/
theorem climbs_statement (ctx : Context) (s : Statement) : Climbs (statement ctx s) := by
  match s with
  | .assign name index value =>
    rw [statement]
    exact .ofExcept _
  | .branch condition yes no =>
    rw [statement]
    refine .bind (.freshPair "IF" "FALSE" "END") fun names => ?_
    refine .bind (.ofExcept _) fun test => ?_
    refine .bind (climbs_statements ctx yes) fun first => ?_
    match no with
    | some block => exact .bind (climbs_statements ctx block) fun second => .pure _
    | none => exact .bind (.pure []) fun second => .pure _
  | .loop condition body =>
    rw [statement]
    refine .bind (.freshPair "WHILE" "EXP" "END") fun names => ?_
    refine .bind (.ofExcept _) fun test => ?_
    exact .bind (climbs_statements ctx body) fun code => .pure _
  | .perform c =>
    rw [statement]
    exact .bind (.ofExcept _) fun code => .pure _
  | .leave value =>
    rw [statement]
    exact .ofExcept _

/-- Neither does a block. -/
theorem climbs_statements (ctx : Context) (block : List Statement) :
    Climbs (statements ctx block) := by
  match block with
  | [] =>
    rw [statements]
    exact .pure []
  | s :: block =>
    rw [statements]
    exact .bind (climbs_statement ctx s) fun first =>
      .bind (climbs_statements ctx block) fun others => .pure _

end

end Emit

/-- Neither does a class. -/
theorem Class.climbs_emit (c : Class) : Climbs c.emit := by
  refine .bind (.mapM (fun sub => ?_) c.subroutines) fun codes => .pure codes.flatten
  exact .bind (Emit.climbs_statements _ sub.body) fun body => .pure _

/-! ## The sources of a run -/

/-- Neither does a source. -/
theorem climbs_compile (source : String) : Climbs (compile source) :=
  .bind (.ofExcept _) fun c => .adaptExcept _ c.climbs_emit

/-- The code of a source is the code of the class that it spells. -/
theorem compile_eq_ok {source : String} {code : Code} {l l' : Labels} :
    compile source l = .ok code l' ↔
      ∃ c, Class.ofSource source = .ok c ∧ c.emit l = .ok code l' := by
  unfold compile
  cases Class.ofSource source with
  | error e =>
    change EStateM.Result.error e l = .ok code l' ↔ _
    simp
  | ok c =>
    change c.emit.adaptExcept CompileError.undeclared l = .ok code l' ↔ _
    rw [Fallible.run_adaptExcept_eq_ok]
    simp

/-- A source that spells no class leaves the counter as it is; otherwise the class has no code. -/
theorem compile_eq_error {source : String} {e : CompileError} {l l' : Labels} :
    compile source l = .error e l' ↔ Class.ofSource source = .error e ∧ l' = l ∨
      ∃ c e', Class.ofSource source = .ok c ∧ c.emit l = .error e' l' ∧ e = .undeclared e' := by
  unfold compile
  cases Class.ofSource source with
  | error e₁ =>
    change EStateM.Result.error e₁ l = .error e l' ↔ _
    simp [eq_comm]
  | ok c =>
    change c.emit.adaptExcept CompileError.undeclared l = .error e l' ↔ _
    rw [Fallible.run_adaptExcept_eq_error]
    simp

/-- The codes of the sources that compile, in order. -/
def compiledCodes (sources : List String) (labels : Labels) : List Code :=
  (compileEach sources labels).1.filterMap Except.toOption

section

variable {source : String} {sources : List String} {l l₁ : Labels} {code : Code} {e : CompileError}

open Labels (after outcome) in
/-- The other sources begin with the counter that the first one leaves. -/
theorem compileEach_cons (source : String) (sources : List String) (l : Labels) :
    compileEach (source :: sources) l
      = (outcome (compile source l) :: (compileEach sources (after (compile source l))).1,
        (compileEach sources (after (compile source l))).2) := by
  rw [compileEach]
  cases compile source l <;> rfl

/-- A source with code leaves its labels to the next. -/
theorem compileEach_of_ok (h : compile source l = .ok code l₁) :
    compileEach (source :: sources) l
      = (.ok code :: (compileEach sources l₁).1, (compileEach sources l₁).2) := by
  rw [compileEach_cons, h]
  rfl

/-- So does a source without code. -/
theorem compileEach_of_error (h : compile source l = .error e l₁) :
    compileEach (source :: sources) l
      = (.error e :: (compileEach sources l₁).1, (compileEach sources l₁).2) := by
  rw [compileEach_cons, h]
  rfl

/-- The code of a source comes before those of the others. -/
theorem compiledCodes_of_ok (h : compile source l = .ok code l₁) :
    compiledCodes (source :: sources) l = code :: compiledCodes sources l₁ := by
  rw [compiledCodes, compileEach_of_ok h]
  exact List.filterMap_cons_some rfl

/-- A source without code leaves none. -/
theorem compiledCodes_of_error (h : compile source l = .error e l₁) :
    compiledCodes (source :: sources) l = compiledCodes sources l₁ := by
  rw [compiledCodes, compileEach_of_error h]
  exact List.filterMap_cons_none rfl

end

/-- The labels of a run are made while it goes on. -/
theorem fresh_compiledCodes (sources : List String) (l : Labels) :
    Fresh l.next (compileEach sources l).2.next
      (Code.labels (compiledCodes sources l).flatten) := by
  induction sources generalizing l with
  | nil => exact .nil (Nat.le_refl _)
  | cons source sources ih =>
    cases h : compile source l with
    | ok code l₁ =>
      obtain ⟨c, -, he⟩ := compile_eq_ok.1 h
      rw [compiledCodes_of_ok h, compileEach_of_ok h, List.flatten_cons, Code.labels_append]
      exact (Class.fresh_emit he).append (ih l₁)
    | error e l₁ =>
      -- a source that fails marks no labels, but it may have taken some
      have hclimbs := climbs_compile source l
      rw [h] at hclimbs
      have hnone : Fresh l.next l₁.next [] := .nil hclimbs
      rw [compiledCodes_of_error h, compileEach_of_error h]
      exact hnone.append (ih l₁)

/-- Every code of a run is the code of a class. -/
theorem exists_emit_of_mem_compiledCodes {sources : List String} {l : Labels} {code : Code}
    (hcode : code ∈ compiledCodes sources l) :
    ∃ (c : Class) (l₁ l₂ : Labels), c.emit l₁ = .ok code l₂ := by
  induction sources generalizing l with
  | nil => cases hcode
  | cons source sources ih =>
    cases h : compile source l with
    | ok code' l₁ =>
      rw [compiledCodes_of_ok h, List.mem_cons] at hcode
      rcases hcode with rfl | hcode
      · obtain ⟨c, -, he⟩ := compile_eq_ok.1 h
        exact ⟨c, l, l₁, he⟩
      · exact ih hcode
    | error e l₁ =>
      rw [compiledCodes_of_error h] at hcode
      exact ih hcode

/-- **Labels are unique over a run, and every jump stays in its function.** Of all the codes that
come of the sources of a run, no two mark the same label and none marks one twice; and in each of
them a jump goes to a label that is marked once, in the function in which the jump stands. -/
theorem compileEach_labels_unique (sources : List String) (labels : Labels) :
    (Code.labels (compiledCodes sources labels).flatten).Nodup ∧
      ∀ code ∈ compiledCodes sources labels, code.JumpsInside := by
  refine ⟨(fresh_compiledCodes sources labels).nodup, ?_⟩
  intro code hcode
  obtain ⟨c, l₁, l₂, he⟩ := exists_emit_of_mem_compiledCodes hcode
  exact Class.jumpsInside_emit he

end JackCompiler
