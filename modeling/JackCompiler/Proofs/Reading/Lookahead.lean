import JackCompiler.Proofs.Reading.FirstFault
/-!
# What may come next

Before each token a reader waits for one of a few kinds of tokens, which a list of patterns names
(`ClassReader.expected`). It takes the next token exactly if that meets one of them, and these are
the tokens with which what was taken still begins a class (`beginsClass_concat_iff`). So a class is
read by walking along its tokens: the next one is taken off as long as the class is open, and
nothing may stand behind its last brace (`Class.ofTokens_eq_walk`). What a name in an expression
stands for is not seen from the name, but from the token after it (`secondIs_iff_of_term`).
-/

namespace JackCompiler

open Token (Kind Pattern)

/-! ## Taking tokens off a list -/

namespace Token

variable {p : Pattern} {ts rest : List Token} {t : Token} {α : Type} {read : Kind → Option α}
  {a : α}

/-- A token is taken if it is the next one and meets the condition. -/
theorem expect_eq_ok_iff : expect p ts = .ok (t, rest) ↔ ts = t :: rest ∧ p.accepts t.kind := by
  cases ts with
  | nil => simp [expect]
  | cons u us =>
    rw [expect]
    by_cases h : p.accepts u.kind
    · rw [if_pos h]
      simp only [Except.ok.injEq, Prod.mk.injEq, List.cons.injEq]
      exact ⟨fun heq => ⟨heq, heq.1 ▸ h⟩, And.left⟩
    · rw [if_neg h]
      simp only [reduceCtorEq, List.cons.injEq, false_iff]
      rintro ⟨⟨rfl, -⟩, hp⟩
      exact h hp

/-- A token is read if it is the next one and its reading gives the value. -/
theorem expectMap_eq_ok_iff :
    expectMap read ts = .ok (a, rest) ↔ ∃ t, ts = t :: rest ∧ read t.kind = some a := by
  cases ts with
  | nil => simp [expectMap]
  | cons u us =>
    rw [expectMap]
    cases h : read u.kind with
    | none =>
      simp only [reduceCtorEq, List.cons.injEq, false_iff]
      rintro ⟨t, ⟨rfl, -⟩, ht⟩
      rw [h] at ht
      cases ht
    | some b =>
      simp only [Except.ok.injEq, Prod.mk.injEq, List.cons.injEq]
      constructor
      · rintro ⟨rfl, rfl⟩
        exact ⟨u, ⟨rfl, rfl⟩, h⟩
      · rintro ⟨t, ⟨rfl, rfl⟩, ht⟩
        exact ⟨Option.some.inj (h.symm.trans ht), rfl⟩

/-- Looking at the next token says whether it can be taken. -/
theorem nextIs_iff_expect : nextIs p ts ↔ ∃ t rest, expect p ts = .ok (t, rest) := by
  simp only [expect_eq_ok_iff]
  cases ts with
  | nil => simp [nextIs]
  | cons u us => simp [nextIs]

/-- Does the token meet one of the conditions? -/
def meets (ps : List Pattern) (k : Kind) : Bool :=
  ps.any fun p => p.accepts k

@[simp]
theorem meets_nil (k : Kind) : meets [] k = false := rfl

@[simp]
theorem meets_cons (p : Pattern) (ps : List Pattern) (k : Kind) :
    meets (p :: ps) k = (p.accepts k || meets ps k) := rfl

@[simp]
theorem meets_append (ps qs : List Pattern) (k : Kind) :
    meets (ps ++ qs) k = (meets ps k || meets qs k) :=
  List.any_append

end Token

open Token (meets)

namespace Reader

/-! ## Expressions -/

/-- The token is this symbol. -/
def symbolIs (c : Char) : Pattern := .exactly (.symbol c)

/-- The token is this keyword. -/
def keywordIs (k : Keyword) : Pattern := .exactly (.keyword k)

@[simp]
theorem accepts_symbolIs (c : Char) (k : Kind) :
    (symbolIs c).accepts k = decide (k = .symbol c) :=
  decide_eq_decide.2 eq_comm

@[simp]
theorem accepts_keywordIs (w : Keyword) (k : Kind) :
    (keywordIs w).accepts k = decide (k = .keyword w) :=
  decide_eq_decide.2 eq_comm

/-- What a type can be. -/
def typePatterns : List Pattern :=
  [keywordIs .int, keywordIs .char, keywordIs .boolean, .anyName]

/-- What a term can begin with. -/
def termPatterns : List Pattern :=
  [.anyInteger, .anyString, keywordIs .true, keywordIs .false, keywordIs .null, keywordIs .this,
    symbolIs '(', symbolIs '-', symbolIs '~', .anyName]

/-- The binary operators. -/
def operatorPatterns : List Pattern :=
  BinaryOp.all.map fun op => symbolIs op.symbol

/-- What can end the innermost expression; `outside` can end the outermost. -/
def closers (outside : List Pattern) : List ExprFrame → List Pattern
  | [] => outside
  | .paren _ :: _ => [symbolIs ')']
  | .index .. :: _ => [symbolIs ']']
  | .argument .. :: _ => [symbolIs ')', symbolIs ',']

/-- What can come next in an expression, or behind it if that is one of `outside`. -/
def ExprReader.expected (outside : List Pattern) : ExprReader → List Pattern
  | .term _ _ => termPatterns
  | .named _ _ frames =>
    symbolIs '[' :: symbolIs '(' :: symbolIs '.' :: (operatorPatterns ++ closers outside frames)
  | .member .. => [.anyName]
  | .callOpen .. => [symbolIs '(']
  | .arguments .. => symbolIs ')' :: termPatterns
  | .operator _ _ frames => operatorPatterns ++ closers outside frames

end Reader

/-- The token is taken, or it ends the phrase where that may end. -/
def Step.goesOn {σ α : Type} (mayEnd : Bool) : Step σ α → Bool
  | more _ => true
  | finished _ => mayEnd
  | stuck => false

namespace Reader

/-- The tokens that name a type. -/
theorem isSome_varType? (k : Kind) : (varType? k).isSome = meets typePatterns k := by
  cases k with
  | keyword k => cases k <;> rfl
  | _ => rfl

/-- The tokens that stand for a binary operator. -/
theorem isSome_binaryOp? (k : Kind) : (binaryOp? k).isSome = meets operatorPatterns k := by
  cases k with
  | symbol c =>
    rw [binaryOp?, BinaryOp.ofSymbol?, List.isSome_find?, operatorPatterns, meets, List.any_map]
    refine congrArg (BinaryOp.all.any ·) (funext fun op => ?_)
    simp only [Function.comp_apply, accepts_symbolIs, Kind.symbol.injEq]
    exact decide_eq_decide.2 eq_comm
  | _ => rfl

namespace ExprReader

variable {outside : List Pattern} {mayEnd : Bool}

/-- A term begins with what a term can begin with. -/
theorem stepTerm_goesOn (now : Operands) (frames : List ExprFrame) (k : Kind) :
    (stepTerm now frames k).goesOn mayEnd = meets termPatterns k := by
  cases k with
  | keyword k => cases k <;> rfl
  | symbol c =>
    unfold stepTerm
    dsimp only
    split
    · rfl
    · rfl
    · rfl
    · simp only [termPatterns, Token.meets_cons, accepts_symbolIs, accepts_keywordIs]
      simp_all [Step.goesOn, Pattern.accepts]
  | _ => rfl

/-- Behind an expression stands what can end it. -/
theorem stepClose_goesOn (e : Expr) (frames : List ExprFrame) (k : Kind) :
    (stepClose e frames k).goesOn (meets outside k) = meets (closers outside frames) k := by
  unfold stepClose
  split
  · rfl
  · simp [Step.goesOn, closers]
  · simp [Step.goesOn, closers]
  · simp [Step.goesOn, closers]
  · simp [Step.goesOn, closers]
  · next hnil hparen hindex hclose hcomma =>
    cases frames with
    | nil => exact absurd rfl hnil
    | cons f frames => cases f <;> simp_all [Step.goesOn, closers]

/-- Behind a term stands an operator or what can end the expression. -/
theorem stepOperator_goesOn (now : Operands) (last : Term) (frames : List ExprFrame) (k : Kind) :
    (stepOperator now last frames k).goesOn (meets outside k)
      = meets (operatorPatterns ++ closers outside frames) k := by
  rw [Token.meets_append, ← isSome_binaryOp?, stepOperator]
  cases binaryOp? k with
  | some op => rfl
  | none => simpa using stepClose_goesOn (now.close last) frames k

/-- **An expression goes on exactly with what can come next in it.** -/
theorem step_goesOn (r : ExprReader) (k : Kind) :
    (r.step k).goesOn (meets outside k) = meets (r.expected outside) k := by
  cases r with
  | term now frames => exact stepTerm_goesOn now frames k
  | named name now frames =>
    rw [step]
    unfold stepNamed
    split
    · simp [Step.goesOn, expected]
    · simp [Step.goesOn, expected]
    · simp [Step.goesOn, expected]
    · next hindex hcall hdot =>
      rw [stepOperator_goesOn]
      simp_all [expected]
  | member receiver now frames => cases k <;> rfl
  | callOpen head now frames =>
    unfold step
    split <;> simp_all [Step.goesOn, expected]
  | arguments head now frames =>
    by_cases hk : k = .symbol ')'
    · subst hk
      rfl
    · rw [step_arguments hk, stepTerm_goesOn]
      simp [expected, hk]
  | operator now last frames => exact stepOperator_goesOn now last frames k

end ExprReader

/-! ## Statements -/

/-- What can come next in a statement. -/
def StatementReader.expected : StatementReader → List Pattern
  | .assignName => [.anyName]
  | .assignTarget _ => [symbolIs '[', symbolIs '=']
  | .assignIndex _ e => e.expected [symbolIs ']']
  | .assignEquals .. => [symbolIs '=']
  | .assignValue _ _ e => e.expected [symbolIs ';']
  | .branchOpen => [symbolIs '(']
  | .branchCondition e => e.expected [symbolIs ')']
  | .branchBrace _ => [symbolIs '{']
  | .branchElse .. => [symbolIs '{']
  | .loopOpen => [symbolIs '(']
  | .loopCondition e => e.expected [symbolIs ')']
  | .loopBrace _ => [symbolIs '{']
  | .performName => [.anyName]
  | .performTarget _ => [symbolIs '(', symbolIs '.']
  | .performMember _ => [.anyName]
  | .performOpen _ => [symbolIs '(']
  | .performArguments _ => symbolIs ')' :: termPatterns
  | .performArgument _ _ e => e.expected [symbolIs ',', symbolIs ')']
  | .performEnd _ => [symbolIs ';']
  | .leave => symbolIs ';' :: termPatterns
  | .leaveValue e => e.expected [symbolIs ';']

/-- What a statement can begin with, or the end of a block. -/
def blockPatterns : List Pattern :=
  [symbolIs '}', keywordIs .let, keywordIs .if, keywordIs .while, keywordIs .do, keywordIs .return]

/-- What can come next in the body of a subroutine. -/
def BodyReader.expected : BodyReader → List Pattern
  | .block .. => blockPatterns
  | .branched .. => keywordIs .else :: blockPatterns
  | .statement s _ _ => s.expected

namespace BodyReader

variable {done : List Statement} {frames : List BlockFrame}

/-- A block can end wherever a statement can begin. -/
theorem endBlock_goesOn : (endBlock done frames).goesOn true = true := by
  cases frames with
  | nil => rfl
  | cons f frames => cases f <;> rfl

/-- In a block, a statement begins or the block ends. -/
theorem stepBlock_goesOn (k : Kind) :
    (stepBlock done frames k).goesOn true = meets blockPatterns k := by
  unfold stepBlock
  split
  · exact endBlock_goesOn
  all_goals simp_all [Step.goesOn, blockPatterns]

/-- Inside an expression of a statement, what may stand behind the expression is what the statement
takes there. -/
theorem stepExpr_goesOn {e : ExprReader} {k : Kind} {carryOn : ExprReader → StatementReader}
    {close : Expr → Kind → Step BodyReader (List Statement)} {outside : List Pattern}
    (hclose : ∀ value, (close value k).goesOn true = meets outside k) :
    (stepExpr e k carryOn done frames close).goesOn true = meets (e.expected outside) k := by
  rw [← ExprReader.step_goesOn, stepExpr]
  cases e.step k with
  | more e => rfl
  | finished value => exact hclose value
  | stuck => rfl

/-- Behind an argument stands a comma or the end of the arguments. -/
theorem stepArgument_goesOn (head : CallHead) (before : List Expr) (e : ExprReader) (k : Kind) :
    (stepStatement.stepArgument done frames head before e k).goesOn true
      = meets (e.expected [symbolIs ',', symbolIs ')']) k := by
  refine stepExpr_goesOn fun value => ?_
  split <;> simp_all [Step.goesOn]

/-- Behind the value of a `return` stands a semicolon. -/
theorem stepValue_goesOn (e : ExprReader) (k : Kind) :
    (stepStatement.stepValue done frames e k).goesOn true
      = meets (e.expected [symbolIs ';']) k := by
  refine stepExpr_goesOn fun value => ?_
  split <;> simp_all [Step.goesOn, afterStatement]

/-- **A statement goes on exactly with what can come next in it.** -/
theorem stepStatement_goesOn (s : StatementReader) (k : Kind) :
    (stepStatement done frames s k).goesOn true = meets s.expected k := by
  cases s with
  | assignName | performName | performMember => cases k <;> rfl
  | assignIndex | assignValue | branchCondition | loopCondition =>
    rw [stepStatement, StatementReader.expected]
    refine stepExpr_goesOn fun value => ?_
    split <;> simp_all [Step.goesOn, afterStatement]
  | performArguments head =>
    by_cases hk : k = .symbol ')'
    · subst hk
      rfl
    · rw [stepStatement, stepArgument_goesOn, StatementReader.expected, Token.meets_cons]
      · simp [hk, ExprReader.start, ExprReader.expected]
      · exact hk
  | performArgument head before e => exact stepArgument_goesOn head before e k
  | leave =>
    by_cases hk : k = .symbol ';'
    · subst hk
      rfl
    · rw [stepStatement, stepValue_goesOn, StatementReader.expected, Token.meets_cons]
      · simp [hk, ExprReader.start, ExprReader.expected]
      · exact hk
  | leaveValue e => exact stepValue_goesOn e k
  | _ =>
    unfold stepStatement
    split <;> simp_all [Step.goesOn, StatementReader.expected, afterStatement]

/-- **A body goes on exactly with what can come next in it.** -/
theorem step_goesOn (b : BodyReader) (k : Kind) : (b.step k).goesOn true = meets b.expected k := by
  cases b with
  | block done frames => exact stepBlock_goesOn k
  | branched condition yes done frames =>
    by_cases hk : k = .keyword .else
    · subst hk
      rfl
    · rw [step, stepBlock_goesOn, expected, Token.meets_cons]
      · simp [hk]
      · exact hk
  | statement s done frames => exact stepStatement_goesOn s k

end BodyReader

/-! ## Classes -/

/-- What can come next in a declaration of variables. -/
def VarDecReader.expected : VarDecReader → List Pattern
  | .varType => typePatterns
  | .varName .. => [.anyName]
  | .separator .. => [symbolIs ',', symbolIs ';']

/-- What can come next in a signature. -/
def SignatureReader.expected : SignatureReader → List Pattern
  | .resultType _ => keywordIs .void :: typePatterns
  | .subroutineName .. => [.anyName]
  | .parenthesis _ => [symbolIs '(']
  | .parameters _ => symbolIs ')' :: typePatterns
  | .parameterType _ => typePatterns
  | .parameterName .. => [.anyName]
  | .separator _ => [symbolIs ',', symbolIs ')']

/-- What can come next in a class. -/
def ClassReader.expected : ClassReader → List Pattern
  | .start => [keywordIs .class]
  | .className => [.anyName]
  | .classBrace _ => [symbolIs '{']
  | .members c =>
    (if c.subroutines.isEmpty then [keywordIs .static, keywordIs .field] else [])
      ++ [keywordIs .constructor, keywordIs .function, keywordIs .method, symbolIs '}']
  | .classVar _ _ d => d.expected
  | .signature _ s => s.expected
  | .bodyBrace .. => [symbolIs '{']
  | .bodyStart .. => keywordIs .var :: blockPatterns
  | .localVar _ _ _ d => d.expected
  | .body _ _ _ b => b.expected
  | .closed _ => []

/-- A declaration goes on exactly with what can come next in it. -/
theorem VarDecReader.step_goesOn (d : VarDecReader) (k : Kind) :
    (d.step k).goesOn true = meets d.expected k := by
  cases d with
  | varType =>
    rw [step, expected, ← isSome_varType?]
    cases varType? k <;> rfl
  | varName type names => cases k <;> rfl
  | separator type names =>
    unfold step
    split <;> simp_all [Step.goesOn, expected]

namespace SignatureReader

/-- The type of a parameter is what a type can be. -/
theorem stepType_goesOn (s : Signature) (k : Kind) :
    (stepType s k).goesOn true = meets typePatterns k := by
  rw [stepType, ← isSome_varType?]
  cases varType? k <;> rfl

/-- A signature goes on exactly with what can come next in it. -/
theorem step_goesOn (r : SignatureReader) (k : Kind) :
    (r.step k).goesOn true = meets r.expected k := by
  cases r with
  | resultType kind =>
    by_cases hk : k = .keyword .void
    · subst hk
      rfl
    · rw [step, expected, Token.meets_cons, ← isSome_varType?]
      · cases varType? k <;> simp [Step.goesOn, hk]
      · exact hk
  | subroutineName kind result => cases k <;> rfl
  | parameters s =>
    by_cases hk : k = .symbol ')'
    · subst hk
      rfl
    · rw [step, stepType_goesOn, expected, Token.meets_cons]
      · simp [hk]
      · exact hk
  | parameterType s => exact stepType_goesOn s k
  | parameterName s type => cases k <;> rfl
  | _ =>
    unfold step
    split <;> simp_all [Step.goesOn, expected, close]

end SignatureReader

namespace ClassReader

/-- Variables are declared only before the first subroutine. -/
theorem isSome_stepMember (c : ClassHead) (k : Kind) :
    (stepMember c k).isSome = meets (expected (.members c)) k := by
  cases hsubs : c.subroutines.isEmpty <;> unfold stepMember <;> split <;>
    simp_all [expected]

/-- In the body of a subroutine the class goes on as the body does. -/
theorem isSome_stepBody (c : ClassHead) (s : Signature) (locals : List VarDec) (b : BodyReader)
    (k : Kind) : (stepBody c s locals b k).isSome = meets b.expected k := by
  rw [← BodyReader.step_goesOn, stepBody]
  cases b.step k <;> rfl

/-- **A class goes on exactly with what can come next in it.** -/
theorem isSome_step (r : ClassReader) (k : Kind) : (r.step k).isSome = meets r.expected k := by
  cases r with
  | className => cases k <;> rfl
  | members c => exact isSome_stepMember c k
  | classVar c kind d =>
    rw [step, expected, ← VarDecReader.step_goesOn]
    cases d.step k <;> rfl
  | signature c s =>
    rw [step, expected, ← SignatureReader.step_goesOn]
    cases s.step k <;> rfl
  | bodyStart c s before =>
    by_cases hk : k = .keyword .var
    · subst hk
      rfl
    · rw [step, isSome_stepBody, expected, Token.meets_cons]
      · simp [hk, BodyReader.start, BodyReader.expected]
      · exact hk
  | localVar c s before d =>
    rw [step, expected, ← VarDecReader.step_goesOn]
    cases d.step k <;> rfl
  | body c s locals b => exact isSome_stepBody c s locals b k
  | closed c => rfl
  | _ =>
    unfold step
    split <;> simp_all [expected]

/-- A reader takes a token exactly if it meets one of the patterns. -/
theorem exists_step_iff {r : ClassReader} {k : Kind} :
    (∃ r', r.step k = some r') ↔ ∃ p ∈ r.expected, p.accepts k := by
  rw [← Option.isSome_iff_exists, isSome_step, meets, List.any_eq_true]

/-- **The tokens that can come next** are those with which what was taken still begins a class. -/
theorem beginsClass_concat_iff {r : ClassReader} {ks : List Kind} {k : Kind}
    (h : Takes step .start ks r) :
    BeginsClass (ks ++ [k]) ↔ ∃ p ∈ r.expected, p.accepts k := by
  rw [beginsClass_iff_takes, ← exists_step_iff]
  constructor
  · rintro ⟨r', hr'⟩
    obtain ⟨r₁, hr₁, hlast⟩ := Takes.append_iff.1 hr'
    obtain rfl : r = r₁ := Option.some.inj (h.symm.trans hr₁)
    obtain ⟨r₂, hr₂, -⟩ := Takes.cons_iff.1 hlast
    exact ⟨r₂, hr₂⟩
  · rintro ⟨r', hr'⟩
    exact ⟨r', h.append (.one hr')⟩

/-! ## Walking along a list -/

/-- The next token can be taken off a list exactly if it is one that can come next. -/
theorem expectMap_step_iff {r : ClassReader} {ts : List Token} :
    (∃ r' rest, Token.expectMap r.step ts = .ok (r', rest)) ↔
      ∃ p ∈ r.expected, Token.nextIs p ts := by
  simp only [Token.expectMap_eq_ok_iff, Token.nextIs_iff_expect, Token.expect_eq_ok_iff]
  constructor
  · rintro ⟨r', rest, t, rfl, hstep⟩
    obtain ⟨p, hp, ht⟩ := exists_step_iff.1 ⟨r', hstep⟩
    exact ⟨p, hp, t, rest, rfl, ht⟩
  · rintro ⟨p, hp, t, rest, rfl, ht⟩
    obtain ⟨r', hstep⟩ := exists_step_iff.2 ⟨p, hp, ht⟩
    exact ⟨r', rest, t, rfl, hstep⟩

/-- Reads on along a list: a token is taken off as long as the class is open, and behind its last
brace the list must be at its end. -/
def walk (r : ClassReader) (ts : List Token) : Except SyntaxError Class :=
  match r with
  | .closed c => (Token.expectEnd ts).map fun _ => c
  | r =>
    match h : Token.expectMap r.step ts with
    | .ok (r', rest) =>
      have : rest.length < ts.length := by
        obtain ⟨t, rfl, -⟩ := Token.expectMap_eq_ok_iff.1 h
        exact Nat.lt_succ_self _
      walk r' rest
    | .error e => .error e
termination_by ts.length

/-- Walking along a list is taking its tokens in order. -/
theorem walk_eq (r : ClassReader) (ts : List Token) :
    r.walk ts = ts.foldlM next r >>= finish := by
  by_cases hr : ∃ c, r = .closed c
  · obtain ⟨c, rfl⟩ := hr
    rw [walk.eq_1]
    cases ts <;> rfl
  have hopen : ∀ c, r = .closed c → False := fun c hc => hr ⟨c, hc⟩
  cases ts with
  | nil =>
    rw [walk.eq_2 _ _ hopen]
    have hend : r.finish = .error .unexpectedEnd := finish_eq_error.2 ⟨rfl, hopen⟩
    exact hend.symm
  | cons t ts =>
    rw [walk.eq_2 _ _ hopen, List.foldlM_cons, next]
    split
    · next r' rest hread =>
      obtain ⟨u, heq, hstep⟩ := Token.expectMap_eq_ok_iff.1 hread
      obtain ⟨rfl, rfl⟩ := List.cons.inj heq
      rw [hstep]
      exact walk_eq r' ts
    · next e hread =>
      rw [Token.expectMap] at hread
      cases hstep : r.step t.kind with
      | some r' =>
        rw [hstep] at hread
        cases hread
      | none =>
        rw [hstep] at hread
        cases hread
        rfl
termination_by ts.length

end ClassReader

/-! ## Names in expressions -/

/-- **Two tokens tell what a name in an expression stands for.** A term that begins with a name is
an entry of an array exactly if `[` comes next, and a call exactly if `(` or `.` does; else it is
a variable. What stands behind a term goes on with no name. -/
theorem secondIs_iff_of_term {t : Term} {ts : List Token} {ks : List Kind}
    (hts : ts.map Token.kind = Spelling.term t ++ ks) (hname : Token.nextIs .anyName ts)
    (hks : ∀ k, ks.head? = some k → ExprReader.extendsName k = false) :
    (Token.secondIs (symbolIs '[') ts ↔ ∃ name e, t = .index name e) ∧
      (Token.secondIs (symbolIs '(') ts ∨ Token.secondIs (symbolIs '.') ts ↔ ∃ c, t = .call c) := by
  have hnext : ∀ p : Pattern, Token.nextIs p ts = (Spelling.term t ++ ks).head?.any p.accepts := by
    intro p
    rw [← hts, List.head?_map, Option.any_map, Token.nextIs]
  have hsecond : ∀ p : Pattern,
      Token.secondIs p ts = (Spelling.term t ++ ks).tail.head?.any p.accepts := by
    intro p
    rw [← hts, ← List.map_tail, List.head?_map, Option.any_map, Token.secondIs, Token.nextIs]
  simp only [hsecond]
  rw [hnext] at hname
  cases t with
  | integer | string | paren | unary => cases hname
  | constant c => cases c <;> cases hname
  | var name =>
    -- the second token is the one behind the term
    have hnone : ∀ c, ExprReader.extendsName (.symbol c) →
        ks.head?.any (symbolIs c).accepts = false := by
      intro c hc
      cases hk : ks.head? with
      | none => rfl
      | some k =>
        have hne : k ≠ .symbol c := by
          rintro rfl
          rw [hks _ hk] at hc
          cases hc
        simp [hne]
    have htail : (Spelling.term (.var name) ++ ks).tail = ks := rfl
    rw [htail, hnone _ rfl, hnone _ rfl, hnone _ rfl]
    simp
  | index name e => simp [Spelling.term]
  | call c =>
    obtain ⟨receiver, name, args⟩ := c
    cases receiver <;> simp [Spelling.term, Spelling.call]

end Reader

open Reader (ClassReader)

/-- **A class is read along the list of its tokens.** -/
theorem Class.ofTokens_eq_walk (ts : List Token) :
    Class.ofTokens ts = ClassReader.walk .start ts :=
  (ClassReader.walk_eq .start ts).symm

end JackCompiler
