import JackCompiler.Proofs.Reading.Class
/-!
# The first token that cannot stand where it does

Tokens begin a class when others can follow them that make them the spelling of one. Whatever a
reader has taken can be completed: an expression in the middle of which it stands can be closed, a
statement ended, a block left, and so on outwards up to the class (`exists_prefix`, once for each
reader). So a reader takes exactly the tokens that begin a class. It stops at the first token with
which they no longer do, and if it stops nowhere, the end of the tokens is the only fault there can
be.
-/

namespace JackCompiler

open Token (Kind)

/-- The tokens spell a class in which every declaration declares something. -/
def SpellsClass (ks : List Kind) : Prop :=
  ∃ c : Class, c.Declares ∧ ks = c.spelling

/-- The tokens can be extended to some that spell a class. -/
def BeginsClass (ks : List Kind) : Prop :=
  ∃ more, SpellsClass (ks ++ more)

namespace Reader

/-! ## Completing expressions -/

theorem Operands.spelling_close (o : Operands) (t : Term) :
    Spelling.expr (o.close (o.wrap t)) = o.spelled ++ Spelling.term t := by
  have h := spelledDone_append o.done (o.wrap t) []
  rw [Spelling.operands, List.append_nil, Operands.spelling_wrap] at h
  rw [Operands.close, ← h, Operands.spelled, List.append_assoc]

/-- An expression can be closed in its frame. -/
theorem ExprFrame.exists_prefix (f : ExprFrame) (e : Expr) :
    ∃ outer, f.spelled ++ Spelling.expr e <+: Spelling.expr outer := by
  cases f with
  | paren o =>
    refine ⟨o.close (o.wrap (.paren e)), ?_⟩
    rw [o.spelling_close]
    simp [ExprFrame.spelled, Spelling.term]
  | index name o =>
    refine ⟨o.close (o.wrap (.index name e)), ?_⟩
    rw [o.spelling_close]
    simp [ExprFrame.spelled, Spelling.term]
  | argument head before o =>
    refine ⟨o.close (o.wrap (.call (head.call (e :: before)))), ?_⟩
    rw [o.spelling_close, Spelling.term, head.spelling_call_cons]
    simp [ExprFrame.spelled]

/-- An expression can be closed in all its frames, the innermost first. -/
theorem exists_prefix_frames (frames : List ExprFrame) (e : Expr) :
    ∃ outer, spelledFrames frames ++ Spelling.expr e <+: Spelling.expr outer := by
  induction frames generalizing e with
  | nil => exact ⟨e, List.prefix_rfl⟩
  | cons f frames ih =>
    obtain ⟨e₁, h₁⟩ := f.exists_prefix e
    obtain ⟨outer, h⟩ := ih e₁
    refine ⟨outer, .trans ?_ h⟩
    rw [spelledFrames, List.append_assoc]
    exact (List.prefix_append_right_inj _).2 h₁

/-- A term that has begun can be completed with all that is around it. -/
theorem exists_prefix_term {ks : List Kind} {t : Term} (o : Operands) (frames : List ExprFrame)
    (h : ks <+: Spelling.term t) :
    ∃ e, spelledFrames frames ++ (o.spelled ++ ks) <+: Spelling.expr e := by
  obtain ⟨e, he⟩ := exists_prefix_frames frames (o.close (o.wrap t))
  rw [o.spelling_close] at he
  refine ⟨e, .trans ?_ he⟩
  exact (List.prefix_append_right_inj _).2 ((List.prefix_append_right_inj _).2 h)

/-- **What was taken of an expression can be completed.** -/
theorem ExprReader.exists_prefix (r : ExprReader) : ∃ e, r.spelled <+: Spelling.expr e := by
  cases r with
  | term now frames =>
    have h := exists_prefix_term (t := .constant .null) now frames List.nil_prefix
    rwa [List.append_nil] at h
  | named name now frames => exact exists_prefix_term (t := .var name) now frames List.prefix_rfl
  | member receiver now frames =>
    refine exists_prefix_term (t := .call (.mk (some receiver) "new" [])) now frames ?_
    simp [Spelling.term, Spelling.call]
  | callOpen head now frames =>
    refine exists_prefix_term (t := .call (head.call [])) now frames ?_
    rw [Spelling.term, head.spelling_call_nil]
    exact List.prefix_append _ _
  | arguments head now frames =>
    refine exists_prefix_term (t := .call (head.call [])) now frames ?_
    rw [Spelling.term, head.spelling_call_nil]
    simp
  | operator now last frames =>
    have h := exists_prefix_term (t := last) { done := now.done } frames List.prefix_rfl
    simpa [Operands.spelled, spelledUnary, ExprReader.spelled] using h

/-! ## Completing bodies -/

/-- **What was taken of a statement can be completed.** -/
theorem StatementReader.exists_prefix (s : StatementReader) :
    ∃ whole, s.spelled <+: Spelling.statement whole := by
  cases s with
  | assignName => exact ⟨.assign default none default, by simp [spelled, statement_assign]⟩
  | assignTarget name => exact ⟨.assign name none default, by simp [spelled, statement_assign]⟩
  | assignIndex name e =>
    obtain ⟨index, h⟩ := e.exists_prefix
    refine ⟨.assign name (some index) default, ?_⟩
    simpa [spelled, statement_assign, spelledEntry] using List.prefix_append_of_prefix h
  | assignEquals name index =>
    exact ⟨.assign name (some index) default, by simp [spelled, statement_assign]⟩
  | assignValue name index e =>
    obtain ⟨value, h⟩ := e.exists_prefix
    refine ⟨.assign name index value, ?_⟩
    simpa [spelled, statement_assign] using List.prefix_append_of_prefix h
  | branchOpen => exact ⟨.branch default [] none, by simp [spelled, Spelling.statement]⟩
  | branchCondition e =>
    obtain ⟨condition, h⟩ := e.exists_prefix
    refine ⟨.branch condition [] none, ?_⟩
    simpa [spelled, Spelling.statement] using List.prefix_append_of_prefix h
  | branchBrace condition =>
    exact ⟨.branch condition [] none, by simp [spelled, Spelling.statement]⟩
  | branchElse condition yes =>
    exact ⟨.branch condition yes (some []), by simp [spelled, statement_branch_some]⟩
  | loopOpen => exact ⟨.loop default [], by simp [spelled, Spelling.statement]⟩
  | loopCondition e =>
    obtain ⟨condition, h⟩ := e.exists_prefix
    refine ⟨.loop condition [], ?_⟩
    simpa [spelled, Spelling.statement] using List.prefix_append_of_prefix h
  | loopBrace condition => exact ⟨.loop condition [], by simp [spelled, Spelling.statement]⟩
  | performName => exact ⟨.perform default, by simp [spelled, Spelling.statement]⟩
  | performTarget name =>
    exact ⟨.perform (.mk none name []), by simp [spelled, Spelling.statement, Spelling.call]⟩
  | performMember receiver =>
    exact ⟨.perform (.mk (some receiver) default []),
      by simp [spelled, Spelling.statement, Spelling.call]⟩
  | performOpen head =>
    exact ⟨.perform (head.call []),
      by simp [spelled, Spelling.statement, head.spelling_call_nil]⟩
  | performArguments head =>
    exact ⟨.perform (head.call []),
      by simp [spelled, Spelling.statement, head.spelling_call_nil]⟩
  | performArgument head before e =>
    obtain ⟨last, h⟩ := e.exists_prefix
    refine ⟨.perform (head.call (last :: before)), ?_⟩
    simpa [spelled, Spelling.statement, head.spelling_call_cons] using
      List.prefix_append_of_prefix h
  | performEnd call => exact ⟨.perform call, by simp [spelled, Spelling.statement]⟩
  | leave => exact ⟨.leave none, by simp [spelled, Spelling.statement]⟩
  | leaveValue e =>
    obtain ⟨value, h⟩ := e.exists_prefix
    refine ⟨.leave (some value), ?_⟩
    simpa [spelled, Spelling.statement] using List.prefix_append_of_prefix h

/-- A block can be ended in its frame. -/
theorem BlockFrame.exists_prefix (f : BlockFrame) (block : List Statement) :
    ∃ outer, f.spelled ++ Spelling.statements block <+: Spelling.statements outer := by
  cases f with
  | yes before condition =>
    refine ⟨before.reverse ++ [.branch condition block none], ?_⟩
    simp [BlockFrame.spelled, statements_concat, Spelling.statement]
  | no before condition first =>
    refine ⟨before.reverse ++ [.branch condition first (some block)], ?_⟩
    simp [BlockFrame.spelled, statements_concat, statement_branch_some]
  | loop before condition =>
    refine ⟨before.reverse ++ [.loop condition block], ?_⟩
    simp [BlockFrame.spelled, statements_concat, Spelling.statement]

/-- A block can be ended in all its frames, the innermost first. -/
theorem exists_prefix_blocks (frames : List BlockFrame) (block : List Statement) :
    ∃ outer, spelledBlocks frames ++ Spelling.statements block <+: Spelling.statements outer := by
  induction frames generalizing block with
  | nil => exact ⟨block, List.prefix_rfl⟩
  | cons f frames ih =>
    obtain ⟨block₁, h₁⟩ := f.exists_prefix block
    obtain ⟨outer, h⟩ := ih block₁
    refine ⟨outer, .trans ?_ h⟩
    rw [spelledBlocks, List.append_assoc]
    exact (List.prefix_append_right_inj _).2 h₁

/-- A statement that has begun can be completed with all that is around it. -/
theorem exists_prefix_statement {ks : List Kind} {s : Statement} (done : List Statement)
    (frames : List BlockFrame) (h : ks <+: Spelling.statement s) :
    ∃ block, spelledBlocks frames ++ (Spelling.statements done.reverse ++ ks)
      <+: Spelling.statements block := by
  obtain ⟨block, hb⟩ := exists_prefix_blocks frames (done.reverse ++ [s])
  rw [statements_concat] at hb
  refine ⟨block, .trans ?_ hb⟩
  exact (List.prefix_append_right_inj _).2 ((List.prefix_append_right_inj _).2 h)

/-- **What was taken of a body can be completed.** -/
theorem BodyReader.exists_prefix (b : BodyReader) :
    ∃ block, b.spelled <+: Spelling.statements block := by
  cases b with
  | block done frames => exact exists_prefix_blocks frames done.reverse
  | branched condition yes done frames =>
    have hbranch : spelledBranch condition yes
        <+: Spelling.statement (.branch condition yes none) :=
      ⟨[], by rw [List.append_nil, statement_branch_none]⟩
    exact exists_prefix_statement done frames hbranch
  | statement s done frames =>
    obtain ⟨whole, h⟩ := s.exists_prefix
    exact exists_prefix_statement done frames h

/-! ## Completing classes -/

/-- What was taken of a declaration can be completed. -/
theorem VarDecReader.exists_prefix {d : VarDecReader} (hd : d.WellFormed) :
    ∃ dec : VarDec, dec.names ≠ [] ∧ d.spelled <+: Spelling.varDec dec := by
  cases d with
  | varType => exact ⟨⟨.int, [default]⟩, List.cons_ne_nil _ _, List.nil_prefix⟩
  | varName type names =>
    refine ⟨⟨type, (default :: names).reverse⟩, by simp, ?_⟩
    simp only [spelled, Spelling.varDec, commaSeparated_reverse, List.append_assoc]
    exact List.cons_prefix_cons.2 ⟨rfl, List.prefix_append _ _⟩
  | separator type names =>
    refine ⟨⟨type, names.reverse⟩, mt List.reverse_eq_nil_iff.1 hd, ?_⟩
    exact List.cons_prefix_cons.2 ⟨rfl, List.prefix_append _ _⟩

/-- What was taken of a signature can be completed. -/
theorem SignatureReader.exists_prefix {r : SignatureReader} (hr : r.WellFormed) :
    ∃ s, r.spelled <+: Spelling.signature s := by
  -- the parameters so far, the last of which has just begun
  have hlast : ∀ (s : Signature) (p : Parameter) {ks : List Kind}, ks <+: parameterSpelling p →
      ∃ whole, spelledHead s ++ (s.parameters.reverse.flatMap
        (fun p => parameterSpelling p ++ [.symbol ',']) ++ ks) <+: Spelling.signature whole := by
    intro s p ks h
    refine ⟨{ s with parameters := (p :: s.parameters).reverse }, ?_⟩
    rw [spelling_signature, commaSeparated_reverse, List.append_assoc]
    exact (List.prefix_append_right_inj _).2
      ((List.prefix_append_right_inj _).2 (List.prefix_append_of_prefix h))
  cases r with
  | resultType kind =>
    refine ⟨⟨kind, none, default, []⟩, ?_⟩
    rw [spelling_signature]
    simp [spelled, spelledHead]
  | subroutineName kind result =>
    refine ⟨⟨kind, result, default, []⟩, ?_⟩
    rw [spelling_signature]
    simp [spelled, spelledHead]
  | parenthesis s =>
    refine ⟨s, ?_⟩
    rw [spelling_signature]
    simp [spelled, spelledHead]
  | parameters s =>
    refine ⟨s, ?_⟩
    rw [spelling_signature]
    exact List.prefix_append _ _
  | parameterType s =>
    have h := hlast s ⟨.int, default⟩ List.nil_prefix
    rwa [List.append_nil] at h
  | parameterName s type =>
    refine hlast s ⟨type, default⟩ ?_
    simp [parameterSpelling]
  | separator s =>
    refine ⟨{ s with parameters := s.parameters.reverse }, ?_⟩
    rw [spelling_signature]
    exact (List.prefix_append_right_inj _).2 (List.prefix_append _ _)

namespace ClassHead

variable {c : ClassHead} {ks : List Kind}

/-- A class can end after any of its members. -/
theorem exists_prefix (hc : c.Declares) : ∃ whole : Class, whole.Declares ∧
    c.spelled <+: whole.spelling := by
  refine ⟨⟨c.name, c.vars.reverse, c.subroutines.reverse⟩, ?_, ?_⟩
  · simpa [Class.Declares, ClassHead.Declares] using hc
  · simp [ClassHead.spelled, Class.spelling, spelledVars]

/-- A variable declaration that has begun can be completed, if there is no subroutine before it. -/
theorem exists_prefix_var {kind : ClassVarKind} {dec : VarDec} (hc : c.Declares)
    (hsubs : c.subroutines = []) (hdec : dec.names ≠ []) (h : ks <+: Spelling.varDec dec) :
    ∃ whole : Class, whole.Declares ∧
      c.spelled ++ .keyword (Spelling.classVarKind kind) :: ks <+: whole.spelling := by
  have hdeclares : ClassHead.Declares { c with vars := (kind, dec) :: c.vars } :=
    ⟨List.forall_mem_cons.2 ⟨hdec, hc.1⟩, hc.2⟩
  obtain ⟨whole, hw, hspelled⟩ := exists_prefix hdeclares
  refine ⟨whole, hw, .trans ?_ hspelled⟩
  simpa [ClassHead.spelled, hsubs, spelledVars] using h

/-- A subroutine that has begun can be completed. -/
theorem exists_prefix_subroutine (sub : Subroutine) (hc : c.Declares)
    (hsub : ∀ d ∈ sub.locals, d.names ≠ []) (h : ks <+: Spelling.subroutine sub) :
    ∃ whole : Class, whole.Declares ∧ c.spelled ++ ks <+: whole.spelling := by
  have hdeclares : ClassHead.Declares { c with subroutines := sub :: c.subroutines } :=
    ⟨hc.1, List.forall_mem_cons.2 ⟨hsub, hc.2⟩⟩
  obtain ⟨whole, hw, hspelled⟩ := exists_prefix hdeclares
  refine ⟨whole, hw, .trans ?_ hspelled⟩
  simpa [ClassHead.spelled] using h

end ClassHead

namespace ClassReader

/-- **What was taken of a class can be completed.** -/
theorem exists_prefix {r : ClassReader} (hr : r.WellFormed) :
    ∃ c : Class, c.Declares ∧ r.spelled <+: c.spelling := by
  have hempty : ∀ name, (⟨name, [], []⟩ : Class).Declares := by simp [Class.Declares]
  cases r with
  | start => exact ⟨_, hempty default, List.nil_prefix⟩
  | className => exact ⟨_, hempty default, by simp [spelled, Class.spelling]⟩
  | classBrace name => exact ⟨_, hempty name, by simp [spelled, Class.spelling]⟩
  | members c => exact ClassHead.exists_prefix hr
  | classVar c kind d =>
    obtain ⟨hc, hsubs, hd⟩ := hr
    obtain ⟨dec, hdec, h⟩ := VarDecReader.exists_prefix hd
    exact ClassHead.exists_prefix_var hc hsubs hdec h
  | signature c s =>
    obtain ⟨s', h⟩ := SignatureReader.exists_prefix hr.2
    exact ClassHead.exists_prefix_subroutine { s' with locals := [], body := [] } hr.1 (by simp)
      (List.prefix_append_of_prefix h)
  | bodyBrace c s =>
    exact ClassHead.exists_prefix_subroutine { s with locals := [], body := [] } hr (by simp)
      (List.prefix_append _ _)
  | bodyStart c s before =>
    refine ClassHead.exists_prefix_subroutine { s with locals := before.reverse, body := [] } hr.1
      (by simpa using hr.2) ?_
    simp [Spelling.subroutine, spelledLocals]
  | localVar c s before d =>
    obtain ⟨hc, hbefore, hd⟩ := hr
    obtain ⟨dec, hdec, h⟩ := VarDecReader.exists_prefix hd
    refine ClassHead.exists_prefix_subroutine
      { s with locals := before.reverse ++ [dec], body := [] } hc ?_ ?_
    · simpa [or_imp, forall_and] using ⟨hbefore, hdec⟩
    · simpa [Spelling.subroutine, spelledLocals] using List.prefix_append_of_prefix h
  | body c s locals b =>
    obtain ⟨block, h⟩ := b.exists_prefix
    refine ClassHead.exists_prefix_subroutine
      { s with locals := locals.reverse, body := block } hr.1 (by simpa using hr.2) ?_
    simpa [Spelling.subroutine, spelledLocals] using List.prefix_append_of_prefix h
  | closed c => exact ⟨c, hr, List.prefix_rfl⟩

/-! ## Where reading stops -/

/-- **A reader takes exactly the tokens that begin a class.** -/
theorem beginsClass_iff_takes {ks : List Kind} : BeginsClass ks ↔ ∃ r, Takes step .start ks r := by
  constructor
  · rintro ⟨more, c, hc, hks⟩
    have h := takes_class hc
    rw [← hks] at h
    obtain ⟨r, hr, -⟩ := Takes.append_iff.1 h
    exact ⟨r, hr⟩
  · rintro ⟨r, h⟩
    obtain ⟨hr, hspelled⟩ := spelled_of_takes h trivial
    obtain ⟨c, hc, more, hmore⟩ := exists_prefix hr
    refine ⟨more, c, hc, ?_⟩
    rw [← hmore, hspelled]
    rfl

theorem spellsClass_iff_takes {ks : List Kind} :
    SpellsClass ks ↔ ∃ c, Takes step .start ks (.closed c) := by
  constructor
  · rintro ⟨c, hc, rfl⟩
    exact ⟨c, takes_class hc⟩
  · rintro ⟨c, h⟩
    obtain ⟨hc, hspelled⟩ := spelled_of_takes h trivial
    exact ⟨c, hc, hspelled.symm⟩

/-- Reading fails at the first token that cannot be taken. -/
theorem foldlM_next_eq_error {tokens : List Token} {r : ClassReader} {e : SyntaxError} :
    tokens.foldlM next r = .error e ↔
      ∃ (i : Nat) (t : Token) (r' : ClassReader), tokens[i]? = some t ∧
        Takes step r ((tokens.take i).map (·.kind)) r' ∧ r'.step t.kind = none ∧
        e = .unexpectedToken t := by
  induction tokens generalizing r with
  | nil => simp [pure, Except.pure]
  | cons t tokens ih =>
    rw [List.foldlM_cons, next]
    cases hs : r.step t.kind with
    | none =>
      change Except.error (SyntaxError.unexpectedToken t) = .error e ↔ _
      constructor
      · rintro ⟨⟩
        exact ⟨0, t, r, rfl, .nil r, hs, rfl⟩
      · rintro ⟨i, t', r', ht, htakes, -, rfl⟩
        cases i with
        | zero =>
          obtain rfl : t = t' := Option.some.inj ht
          rfl
        | succ i =>
          obtain ⟨r₁, hr₁, -⟩ := Takes.cons_iff.1 htakes
          rw [hs] at hr₁
          cases hr₁
    | some r₁ =>
      change tokens.foldlM next r₁ = .error e ↔ _
      rw [ih]
      constructor
      · rintro ⟨i, t', r', ht, htakes, h⟩
        exact ⟨i + 1, t', r', ht, .cons hs htakes, h⟩
      · rintro ⟨i, t', r', ht, htakes, hstuck, rfl⟩
        cases i with
        | zero =>
          obtain rfl : t = t' := Option.some.inj ht
          obtain rfl : r = r' := Option.some.inj htakes
          rw [hs] at hstuck
          cases hstuck
        | succ i =>
          obtain ⟨r₂, hr₂, htakes⟩ := Takes.cons_iff.1 htakes
          obtain rfl : r₁ = r₂ := Option.some.inj (hs.symm.trans hr₂)
          exact ⟨i, t', r', ht, htakes, hstuck, rfl⟩

/-- At a token of a list, reading stops exactly if the tokens before it begin a class and it does
not go on with them. -/
theorem stops_iff {tokens : List Token} {i : Nat} {t : Token} (ht : tokens[i]? = some t) :
    (∃ r, Takes step .start ((tokens.take i).map (·.kind)) r ∧ r.step t.kind = none) ↔
      BeginsClass ((tokens.take i).map (·.kind)) ∧
        ¬ BeginsClass ((tokens.take (i + 1)).map (·.kind)) := by
  have htake : (tokens.take (i + 1)).map (·.kind) = (tokens.take i).map (·.kind) ++ [t.kind] := by
    rw [List.take_add_one, ht]
    simp
  rw [htake, beginsClass_iff_takes, beginsClass_iff_takes]
  constructor
  · rintro ⟨r, hr, hstuck⟩
    refine ⟨⟨r, hr⟩, ?_⟩
    rintro ⟨r', hr'⟩
    obtain ⟨r₁, h₁, h⟩ := Takes.append_iff.1 hr'
    obtain rfl : r = r₁ := Option.some.inj (hr.symm.trans h₁)
    obtain ⟨r₂, h₂, -⟩ := Takes.cons_iff.1 h
    rw [hstuck] at h₂
    cases h₂
  · rintro ⟨⟨r, hr⟩, hends⟩
    refine ⟨r, hr, ?_⟩
    cases hs : r.step t.kind with
    | none => rfl
    | some r' => exact absurd ⟨r', hr.append (.one hs)⟩ hends

theorem finish_eq_error {r : ClassReader} {e : SyntaxError} :
    r.finish = .error e ↔ e = .unexpectedEnd ∧ ∀ c, r ≠ .closed c := by
  cases r <;> simp [finish, eq_comm]

end ClassReader

end Reader

open Reader (ClassReader)

theorem Class.ofTokens_eq_error {tokens : List Token} {e : SyntaxError} :
    Class.ofTokens tokens = .error e ↔ tokens.foldlM ClassReader.next .start = .error e ∨
      ∃ r, tokens.foldlM ClassReader.next .start = .ok r ∧ r.finish = .error e := by
  unfold Class.ofTokens
  cases tokens.foldlM ClassReader.next .start <;> simp [bind, Except.bind]

/-- **A syntax error names the first fault.** A token is reported exactly if the tokens before it
can be extended to the spelling of a class and no longer can with it; the end is reported exactly if
all the tokens can be extended to the spelling of a class but are not one. -/
theorem Class.ofTokens_firstFault (tokens : List Token) :
    (∀ t, Class.ofTokens tokens = .error (.unexpectedToken t) ↔
      ∃ i, tokens[i]? = some t ∧ BeginsClass ((tokens.take i).map (·.kind)) ∧
        ¬ BeginsClass ((tokens.take (i + 1)).map (·.kind))) ∧
    (Class.ofTokens tokens = .error .unexpectedEnd ↔
      ¬ SpellsClass (tokens.map (·.kind)) ∧ BeginsClass (tokens.map (·.kind))) := by
  constructor
  · intro t
    rw [Class.ofTokens_eq_error, ClassReader.foldlM_next_eq_error]
    constructor
    · rintro (⟨i, t', r, ht, hr, hstuck, heq⟩ | ⟨r, -, hr⟩)
      · obtain rfl : t = t' := SyntaxError.unexpectedToken.inj heq
        exact ⟨i, ht, (ClassReader.stops_iff ht).1 ⟨r, hr, hstuck⟩⟩
      · cases (ClassReader.finish_eq_error.1 hr).1
    · rintro ⟨i, ht, hstops⟩
      obtain ⟨r, hr, hstuck⟩ := (ClassReader.stops_iff ht).2 hstops
      exact .inl ⟨i, t, r, ht, hr, hstuck, rfl⟩
  · rw [Class.ofTokens_eq_error, ClassReader.foldlM_next_eq_error,
      ClassReader.spellsClass_iff_takes, ClassReader.beginsClass_iff_takes]
    constructor
    · rintro (⟨i, t, r, -, -, -, heq⟩ | ⟨r, hr, hend⟩)
      · cases heq
      · -- the reader is where its tokens lead, so they do not lead to a closed class
        have hr := ClassReader.foldlM_next_eq_ok.1 hr
        refine ⟨?_, r, hr⟩
        rintro ⟨c, hc⟩
        exact (ClassReader.finish_eq_error.1 hend).2 c (Option.some.inj (hr.symm.trans hc))
    · rintro ⟨hclosed, r, hr⟩
      refine .inr ⟨r, ClassReader.foldlM_next_eq_ok.2 hr, ClassReader.finish_eq_error.2 ⟨rfl, ?_⟩⟩
      rintro c rfl
      exact hclosed ⟨c, hr⟩

end JackCompiler
