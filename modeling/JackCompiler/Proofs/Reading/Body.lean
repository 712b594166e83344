import JackCompiler.Proofs.Reading.Expression
import JackCompiler.Syntax.Reader.Body
/-!
# Reading bodies

The same two facts as for expressions: the tokens that a reader of statements has taken can be
spelled from its state, and the spelling of every block takes the reader to the end of the block. A
branch whose first block has ended may still go on with `else`, but no statement begins so
(`AtBlock`).
-/

namespace JackCompiler

open Token (Kind)

namespace Reader

/-! ## The tokens that were taken -/

/-- The tokens of the index in an assignment. -/
def spelledEntry : Option Expr → List Kind
  | some e => .symbol '[' :: (Spelling.expr e ++ [.symbol ']'])
  | none => []

/-- The tokens of a branch up to the end of its first block. -/
def spelledBranch (condition : Expr) (yes : List Statement) : List Kind :=
  .keyword .if :: .symbol '(' :: (Spelling.expr condition
    ++ .symbol ')' :: .symbol '{' :: (Spelling.statements yes ++ [.symbol '}']))

/-- The tokens of a statement that were taken. -/
def StatementReader.spelled : StatementReader → List Kind
  | .assignName => [.keyword .let]
  | .assignTarget name => [.keyword .let, .name name]
  | .assignIndex name e => .keyword .let :: .name name :: .symbol '[' :: e.spelled
  | .assignEquals name index => .keyword .let :: .name name :: spelledEntry (some index)
  | .assignValue name index e =>
    .keyword .let :: .name name :: (spelledEntry index ++ .symbol '=' :: e.spelled)
  | .branchOpen => [.keyword .if]
  | .branchCondition e => .keyword .if :: .symbol '(' :: e.spelled
  | .branchBrace condition =>
    .keyword .if :: .symbol '(' :: (Spelling.expr condition ++ [.symbol ')'])
  | .branchElse condition yes => spelledBranch condition yes ++ [.keyword .else]
  | .loopOpen => [.keyword .while]
  | .loopCondition e => .keyword .while :: .symbol '(' :: e.spelled
  | .loopBrace condition =>
    .keyword .while :: .symbol '(' :: (Spelling.expr condition ++ [.symbol ')'])
  | .performName => [.keyword .do]
  | .performTarget name => [.keyword .do, .name name]
  | .performMember receiver => [.keyword .do, .name receiver, .symbol '.']
  | .performOpen head => .keyword .do :: head.spelled
  | .performArguments head => .keyword .do :: (head.spelled ++ [.symbol '('])
  | .performArgument head before e =>
    .keyword .do :: (head.spelled ++ .symbol '(' :: (spelledArguments before ++ e.spelled))
  | .performEnd call => .keyword .do :: Spelling.call call
  | .leave => [.keyword .return]
  | .leaveValue e => .keyword .return :: e.spelled

/-- The tokens around a block, up to where it begins. -/
def BlockFrame.spelled : BlockFrame → List Kind
  | .yes before condition => Spelling.statements before.reverse
      ++ .keyword .if :: .symbol '(' :: (Spelling.expr condition ++ [.symbol ')', .symbol '{'])
  | .no before condition first => Spelling.statements before.reverse
      ++ (spelledBranch condition first ++ [.keyword .else, .symbol '{'])
  | .loop before condition => Spelling.statements before.reverse
      ++ .keyword .while :: .symbol '(' :: (Spelling.expr condition ++ [.symbol ')', .symbol '{'])

/-- The tokens around nested blocks, the outermost first. -/
def spelledBlocks : List BlockFrame → List Kind
  | [] => []
  | f :: frames => spelledBlocks frames ++ f.spelled

/-- The tokens that the reader has taken. -/
def BodyReader.spelled : BodyReader → List Kind
  | .block done frames => spelledBlocks frames ++ Spelling.statements done.reverse
  | .branched condition yes done frames =>
    spelledBlocks frames ++ (Spelling.statements done.reverse ++ spelledBranch condition yes)
  | .statement s done frames =>
    spelledBlocks frames ++ (Spelling.statements done.reverse ++ s.spelled)

/-- The last statement of a block is spelled behind the others. -/
theorem statements_concat (block : List Statement) (s : Statement) :
    Spelling.statements (block ++ [s]) = Spelling.statements block ++ Spelling.statement s := by
  induction block with
  | nil => simp [Spelling.statements]
  | cons s' block ih => simp [Spelling.statements, ih]

/-- An assignment is spelled by its target, its index if it has one, and its value. -/
theorem statement_assign (name : String) (index : Option Expr) (value : Expr) :
    Spelling.statement (.assign name index value) = .keyword .let :: .name name
      :: (spelledEntry index ++ .symbol '=' :: (Spelling.expr value ++ [.symbol ';'])) := by
  cases index <;> simp [Spelling.statement, spelledEntry]

theorem statement_branch_none (condition : Expr) (yes : List Statement) :
    Spelling.statement (.branch condition yes none) = spelledBranch condition yes := by
  simp [Spelling.statement, spelledBranch]

/-- A second block is spelled behind `else`. -/
theorem statement_branch_some (condition : Expr) (yes no : List Statement) :
    Spelling.statement (.branch condition yes (some no)) = spelledBranch condition yes
      ++ .keyword .else :: .symbol '{' :: (Spelling.statements no ++ [.symbol '}']) := by
  simp [Spelling.statement, spelledBranch]

theorem statement_leave (value : Option Expr) :
    Spelling.statement (.leave value)
      = .keyword .return :: ((value.map Spelling.expr).getD [] ++ [.symbol ';']) := by
  cases value <;> simp [Spelling.statement]

namespace BodyReader

/-- The step adds its token, or its token ends the body that is spelled with it. -/
def Adds (before : List Kind) (k : Kind) : Step BodyReader (List Statement) → Prop :=
  Step.Satisfies (fun r => r.spelled = before ++ [k]) fun block =>
    Spelling.statements block ++ [.symbol '}'] = before ++ [k]

/-- The brace that ends a block is added. -/
theorem endBlock_adds (done : List Statement) (frames : List BlockFrame) :
    Adds (spelledBlocks frames ++ Spelling.statements done.reverse) (.symbol '}')
      (endBlock done frames) := by
  unfold endBlock
  split <;> simp [Adds, Step.Satisfies, BodyReader.spelled, spelledBlocks, BlockFrame.spelled,
    statements_concat, Spelling.statement, spelledBranch]

/-- The beginning of a statement or the end of a block is added. -/
theorem stepBlock_adds (done : List Statement) (frames : List BlockFrame) (k : Kind) :
    Adds (spelledBlocks frames ++ Spelling.statements done.reverse) k
      (stepBlock done frames k) := by
  unfold stepBlock
  split
  · exact endBlock_adds done frames
  all_goals simp [Adds, Step.Satisfies, BodyReader.spelled, StatementReader.spelled]

/-- A token inside an expression is added to it, or it stands behind the expression. -/
theorem stepExpr_adds (before : List Kind) {carryOn : ExprReader → StatementReader}
    {done : List Statement} {frames : List BlockFrame}
    {close : Expr → Kind → Step BodyReader (List Statement)} {e : ExprReader} {k : Kind}
    (hcarry : ∀ e, (carryOn e).spelled = before ++ e.spelled)
    (hclose : ∀ e, Adds (spelledBlocks frames
      ++ (Spelling.statements done.reverse ++ (before ++ Spelling.expr e))) k (close e k)) :
    Adds (BodyReader.statement (carryOn e) done frames).spelled k
      (stepExpr e k carryOn done frames close) := by
  have h := e.step_adds k
  unfold stepExpr
  split
  · next e' he =>
    rw [he] at h
    have h : e'.spelled = e.spelled ++ [k] := h
    simp [Adds, Step.Satisfies, BodyReader.spelled, hcarry, h]
  · next e' he =>
    rw [he] at h
    have h : Spelling.expr e' = e.spelled := h
    rw [BodyReader.spelled, hcarry, ← h]
    exact hclose e'
  · trivial

/-- The last token of a statement is added, and the statement is complete. -/
theorem afterStatement_adds {s : Statement} {done : List Statement} {frames : List BlockFrame}
    {before : List Kind} {k : Kind} (h : Spelling.statement s = before ++ [k]) :
    Adds (spelledBlocks frames ++ (Spelling.statements done.reverse ++ before)) k
      (afterStatement s done frames) := by
  simp [afterStatement, Adds, Step.Satisfies, BodyReader.spelled, statements_concat, h]

/-- A token of an argument is added. -/
theorem stepArgument_adds (done : List Statement) (frames : List BlockFrame) (head : CallHead)
    (before : List Expr) (e : ExprReader) (k : Kind) :
    Adds (BodyReader.statement (.performArgument head before e) done frames).spelled k
      (stepStatement.stepArgument done frames head before e k) := by
  refine stepExpr_adds (.keyword .do :: (head.spelled ++ .symbol '(' :: spelledArguments before))
    (by simp [StatementReader.spelled]) fun e => ?_
  split <;> simp [Adds, Step.Satisfies, BodyReader.spelled, StatementReader.spelled,
    spelledArguments, CallHead.spelling_call_cons]

/-- A token of the value of a `return` is added. -/
theorem stepValue_adds (done : List Statement) (frames : List BlockFrame) (e : ExprReader)
    (k : Kind) :
    Adds (BodyReader.statement (.leaveValue e) done frames).spelled k
      (stepStatement.stepValue done frames e k) := by
  refine stepExpr_adds [.keyword .return] (fun _ => rfl) fun e => ?_
  split
  · exact afterStatement_adds (by simp [Spelling.statement])
  · trivial

/-- A token of a statement is added. -/
theorem stepStatement_adds (done : List Statement) (frames : List BlockFrame) (s : StatementReader)
    (k : Kind) :
    Adds (BodyReader.statement s done frames).spelled k (stepStatement done frames s k) := by
  unfold stepStatement
  split
  -- the cases in which an expression is read: indices, values, conditions and arguments
  case h_4 name e =>
    refine stepExpr_adds [.keyword .let, .name name, .symbol '['] (fun _ => rfl) fun e => ?_
    split <;> simp [Adds, Step.Satisfies, BodyReader.spelled, StatementReader.spelled, spelledEntry]
  case h_6 name index e =>
    refine stepExpr_adds (.keyword .let :: .name name :: (spelledEntry index ++ [.symbol '=']))
      (by simp [StatementReader.spelled]) fun e => ?_
    split
    · exact afterStatement_adds (by simp [statement_assign])
    · trivial
  case h_8 e =>
    refine stepExpr_adds [.keyword .if, .symbol '('] (fun _ => rfl) fun e => ?_
    split <;> simp [Adds, Step.Satisfies, BodyReader.spelled, StatementReader.spelled]
  case h_12 e =>
    refine stepExpr_adds [.keyword .while, .symbol '('] (fun _ => rfl) fun e => ?_
    split <;> simp [Adds, Step.Satisfies, BodyReader.spelled, StatementReader.spelled]
  case h_20 head _ =>
    have h := stepArgument_adds done frames head [] .start k
    simpa [BodyReader.spelled, StatementReader.spelled, spelledArguments] using h
  case h_21 head before e => exact stepArgument_adds done frames head before e k
  case h_24 =>
    have h := stepValue_adds done frames .start k
    simpa [BodyReader.spelled, StatementReader.spelled] using h
  case h_25 e => exact stepValue_adds done frames e k
  -- in the others one certain token must come
  all_goals simp [Adds, Step.Satisfies, BodyReader.spelled, StatementReader.spelled,
    afterStatement, statements_concat, Spelling.statement, spelledBlocks, BlockFrame.spelled,
    Spelling.statements, CallHead.spelled, spelledEntry, CallHead.spelling_call_nil]

/-- **Each step adds its token to the tokens taken before.** -/
theorem step_adds (r : BodyReader) (k : Kind) : Adds r.spelled k (r.step k) := by
  cases r with
  | block done frames => exact stepBlock_adds done frames k
  | branched condition yes done frames =>
    have hblock := stepBlock_adds (.branch condition yes none :: done) frames k
    unfold step
    split <;> simp_all [Adds, Step.Satisfies, BodyReader.spelled, StatementReader.spelled,
      statements_concat, statement_branch_none]
  | statement s done frames => exact stepStatement_adds done frames s k

/-! ## Taking the tokens of a block -/

/-- The reader after a token, if more must follow. -/
def next (r : BodyReader) (k : Kind) : Option BodyReader :=
  (r.step k).more?

/-- A statement or the end of the innermost block can come, and `else` alone can tell whether the
reader knows that the statement before is complete. -/
def AtBlock (r : BodyReader) (done : List Statement) (frames : List BlockFrame) : Prop :=
  ∀ k, k ≠ .keyword .else → r.step k = stepBlock done frames k

theorem atBlock_block (done : List Statement) (frames : List BlockFrame) :
    AtBlock (.block done frames) done frames :=
  fun _ _ => rfl

/-- Behind the first block of a branch the branch may be complete. -/
theorem atBlock_branched (condition : Expr) (yes done : List Statement)
    (frames : List BlockFrame) :
    AtBlock (.branched condition yes done frames) (.branch condition yes none :: done) frames := by
  intro k hk
  rw [step]
  exact hk

/-- Where a statement may begin, all tokens but `else` are taken alike. -/
theorem AtBlock.next_eq {r : BodyReader} {done : List Statement} {frames : List BlockFrame}
    (h : AtBlock r done frames) {k : Kind} (hk : k ≠ .keyword .else) :
    r.next k = (stepBlock done frames k).more? :=
  congrArg Step.more? (h k hk)

section Statement

variable {done : List Statement} {frames : List BlockFrame}

/-- A reader takes the tokens of an expression in a statement, and the token behind it. -/
theorem takes_exprThen {carryOn : ExprReader → StatementReader}
    {close : Expr → Kind → Step BodyReader (List Statement)} {r' : BodyReader} {k : Kind} (e : Expr)
    (hstep : ∀ r k, stepStatement done frames (carryOn r) k
      = stepExpr r k carryOn done frames close)
    (hk : ExprReader.endsExpr k) (hclose : close e k = .more r') :
    Takes next (.statement (carryOn .start) done frames) (Spelling.expr e ++ [k]) r' := by
  obtain ⟨r, h, hr⟩ := ExprReader.takes_expr e []
  have hlift : Takes next (.statement (carryOn .start) done frames) (Spelling.expr e)
      (.statement (carryOn r) done frames) := by
    refine h.lift (fun r => BodyReader.statement (carryOn r) done frames) ?_
    intro r k r' hr'
    change (stepStatement done frames (carryOn r) k).more? = _
    rw [hstep, stepExpr, Step.more?_eq_some hr']
    rfl
  refine hlift.append (.one ?_)
  change (stepStatement done frames (carryOn r) k).more? = _
  rw [hstep, stepExpr, hr k hk]
  exact congrArg Step.more? hclose

/-- A reader takes an argument of a call and what comes after it. -/
theorem takes_performArgument (head : CallHead) (before : List Expr) (e : Expr) (es : List Expr) :
    Takes next (.statement (.performArgument head before .start) done frames)
      (Spelling.expr e ++ ((Spelling.arguments es).flatMap (.symbol ',' :: ·) ++ [.symbol ')']))
      (.statement (.performEnd (head.call (es.reverse ++ e :: before))) done frames) := by
  induction es generalizing before e with
  | nil => exact takes_exprThen e (fun _ _ => rfl) rfl rfl
  | cons e' es ih =>
    have hcomma : Takes next (.statement (.performArgument head before .start) done frames)
        (Spelling.expr e ++ [.symbol ','])
        (.statement (.performArgument head (e :: before) .start) done frames) :=
      takes_exprThen e (fun _ _ => rfl) rfl rfl
    have h := hcomma.append (ih (e :: before) e')
    simpa [Spelling.arguments] using h

/-- A reader takes the arguments of a call that is performed. -/
theorem takes_performArguments (head : CallHead) (args : List Expr) :
    Takes next (.statement (.performArguments head) done frames)
      (commaSeparated (Spelling.arguments args) ++ [.symbol ')'])
      (.statement (.performEnd (head.call args.reverse)) done frames) := by
  cases args with
  | nil => exact .one rfl
  | cons e es =>
    rw [Spelling.arguments, commaSeparated_cons, List.append_assoc, List.reverse_cons]
    refine (takes_performArgument head [] e es).of_first ?_ ?_
    · simp [ExprReader.expr_ne_nil]
    · intro k r hk
      have hparen : k ≠ .symbol ')' := by
        rintro rfl
        cases hk
      rw [← hk, next, step, stepStatement]
      · rfl
      · exact hparen

/-- A reader takes a call behind `do`. -/
theorem takes_perform (c : Call) :
    Takes next (.statement .performName done frames) (Spelling.call c)
      (.statement (.performEnd c) done frames) := by
  obtain ⟨receiver, name, args⟩ := c
  have h : Takes next (.statement (.performArguments ⟨receiver, name⟩) done frames) _ _ :=
    takes_performArguments ⟨receiver, name⟩ args
  rw [CallHead.call, List.reverse_reverse] at h
  cases receiver with
  | none => exact .cons rfl (.cons rfl h)
  | some r => exact .cons rfl (.cons rfl (.cons rfl (.cons rfl h)))

/-- A reader takes a `return`, with a value or without. -/
theorem takes_leave (value : Option Expr) :
    Takes next (.statement .leave done frames) ((value.map Spelling.expr).getD [] ++ [.symbol ';'])
      (.block (.leave value :: done) frames) := by
  cases value with
  | none => exact .one rfl
  | some e =>
    have h : Takes next (.statement (.leaveValue .start) done frames)
        (Spelling.expr e ++ [.symbol ';']) (.block (.leave (some e) :: done) frames) :=
      takes_exprThen e (fun _ _ => rfl) rfl rfl
    refine h.of_first (by simp) ?_
    intro k r hk
    have hend : k ≠ .symbol ';' := by
      rintro rfl
      cases hk
    rw [← hk, next, step, stepStatement]
    · rfl
    · exact hend

/-- A reader takes an assignment, with an index or without. -/
theorem takes_assign (name : String) (index : Option Expr) (value : Expr) :
    Takes next (.statement .assignName done frames)
      (.name name :: (spelledEntry index ++ .symbol '=' :: (Spelling.expr value ++ [.symbol ';'])))
      (.block (.assign name index value :: done) frames) := by
  have hvalue : Takes next (.statement (.assignValue name index .start) done frames)
      (Spelling.expr value ++ [.symbol ';']) (.block (.assign name index value :: done) frames) :=
    takes_exprThen value (fun _ _ => rfl) rfl rfl
  refine .cons rfl ?_
  cases index with
  | none => exact .cons rfl hvalue
  | some e =>
    have hindex : Takes next (.statement (.assignIndex name .start) done frames)
        (Spelling.expr e ++ [.symbol ']']) (.statement (.assignEquals name e) done frames) :=
      takes_exprThen e (fun _ _ => rfl) rfl rfl
    exact .cons rfl (hindex.append (.cons rfl hvalue))

/-- A reader takes the condition of a branch and the brace behind it. -/
theorem takes_branchCondition (condition : Expr) {ks : List Kind} {r' : BodyReader}
    (h : Takes next (.block [] (.yes done condition :: frames)) ks r') :
    Takes next (.statement .branchOpen done frames)
      (.symbol '(' :: (Spelling.expr condition ++ .symbol ')' :: .symbol '{' :: ks)) r' := by
  have hcondition : Takes next (.statement (.branchCondition .start) done frames)
      (Spelling.expr condition ++ [.symbol ')'])
      (.statement (.branchBrace condition) done frames) :=
    takes_exprThen condition (fun _ _ => rfl) rfl rfl
  rw [List.append_cons]
  exact .cons rfl (hcondition.append (.cons rfl h))

/-- A reader takes the condition of a loop and the brace behind it. -/
theorem takes_loopCondition (condition : Expr) {ks : List Kind} {r' : BodyReader}
    (h : Takes next (.block [] (.loop done condition :: frames)) ks r') :
    Takes next (.statement .loopOpen done frames)
      (.symbol '(' :: (Spelling.expr condition ++ .symbol ')' :: .symbol '{' :: ks)) r' := by
  have hcondition : Takes next (.statement (.loopCondition .start) done frames)
      (Spelling.expr condition ++ [.symbol ')']) (.statement (.loopBrace condition) done frames) :=
    takes_exprThen condition (fun _ _ => rfl) rfl rfl
  rw [List.append_cons]
  exact .cons rfl (hcondition.append (.cons rfl h))

/-- The brace behind a block ends it. -/
theorem AtBlock.next_brace {r : BodyReader} {block : List Statement}
    (hr : AtBlock r (block.reverse ++ []) frames) :
    r.next (.symbol '}') = (endBlock block.reverse frames).more? := by
  rw [hr.next_eq (by decide), List.append_nil]
  rfl

end Statement

mutual

/-- A reader takes the tokens of a statement, and then another statement can come. -/
theorem takes_statement (s : Statement) {r : BodyReader} {done : List Statement}
    {frames : List BlockFrame} (hr : AtBlock r done frames) :
    ∃ r', Takes next r (Spelling.statement s) r' ∧ AtBlock r' (s :: done) frames := by
  match s with
  | .assign name index value =>
    rw [statement_assign]
    exact ⟨_, .cons (hr.next_eq (by decide)) (takes_assign name index value), atBlock_block _ _⟩
  | .branch condition yes no =>
    obtain ⟨r₁, h₁, hr₁⟩ := takes_statements yes (atBlock_block [] (.yes done condition :: frames))
    have hbrace := hr₁.next_brace
    rw [endBlock, List.reverse_reverse] at hbrace
    have hfirst :
        Takes next r (spelledBranch condition yes) (.branched condition yes done frames) :=
      .cons (hr.next_eq (by decide)) (takes_branchCondition condition (h₁.append (.one hbrace)))
    match no with
    | none =>
      rw [statement_branch_none]
      exact ⟨_, hfirst, atBlock_branched condition yes done frames⟩
    | some no =>
      obtain ⟨r₂, h₂, hr₂⟩ :=
        takes_statements no (atBlock_block [] (.no done condition yes :: frames))
      have hbrace := hr₂.next_brace
      rw [endBlock, List.reverse_reverse] at hbrace
      rw [statement_branch_some]
      exact ⟨_, hfirst.append (.cons rfl (.cons rfl (h₂.append (.one hbrace)))), atBlock_block _ _⟩
  | .loop condition body =>
    obtain ⟨r₁, h₁, hr₁⟩ :=
      takes_statements body (atBlock_block [] (.loop done condition :: frames))
    have hbrace := hr₁.next_brace
    rw [endBlock, List.reverse_reverse] at hbrace
    exact ⟨_, .cons (hr.next_eq (by decide))
      (takes_loopCondition condition (h₁.append (.one hbrace))), atBlock_block _ _⟩
  | .perform c =>
    exact ⟨_, .cons (hr.next_eq (by decide)) ((takes_perform c).append (.one rfl)),
      atBlock_block _ _⟩
  | .leave value =>
    have h : Takes next (.statement .leave done frames) _ _ := takes_leave value
    rw [statement_leave]
    exact ⟨_, .cons (hr.next_eq (by decide)) h, atBlock_block _ _⟩

/-- A reader takes the tokens of the statements of a block. -/
theorem takes_statements (block : List Statement) {r : BodyReader} {done : List Statement}
    {frames : List BlockFrame} (hr : AtBlock r done frames) :
    ∃ r', Takes next r (Spelling.statements block) r' ∧
      AtBlock r' (block.reverse ++ done) frames := by
  match block with
  | [] => exact ⟨r, .nil r, hr⟩
  | s :: block =>
    obtain ⟨r₁, h₁, hr₁⟩ := takes_statement s hr
    obtain ⟨r₂, h₂, hr₂⟩ := takes_statements block hr₁
    rw [List.reverse_cons, List.append_assoc]
    exact ⟨r₂, h₁.append h₂, hr₂⟩

end

end BodyReader

end Reader

end JackCompiler
