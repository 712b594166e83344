import JackCompiler.Syntax.Reader.Expression
import JackCompiler.Syntax.Spelling
/-!
# Reading expressions

A reader knows all the tokens it has taken: they can be spelled from its state (`spelled`), and each
step adds its token to them. So what a reader has made of some tokens is spelled by exactly these
tokens. For the other direction the spelling of an expression is fed to a reader. A reader that has
taken the last token of a term need not know that the term is over, because a name may go on; but
tokens that do not go on with a name cannot tell it from one that does (`Completes`).
-/

namespace JackCompiler

open Token (Kind)

/-! ## Commas -/

/-- Behind the first of some things, each other one has a comma before it. -/
theorem commaSeparated_cons (x : List Kind) (xs : List (List Kind)) :
    commaSeparated (x :: xs) = x ++ xs.flatMap (.symbol ',' :: ·) := by
  induction xs generalizing x with
  | nil => simp [commaSeparated, List.intercalate]
  | cons y xs ih =>
    have hcons : commaSeparated (x :: y :: xs) = x ++ .symbol ',' :: commaSeparated (y :: xs) := by
      simp [commaSeparated, List.intercalate]
    rw [hcons, ih]
    simp

/-- The last of some things stands behind the others, each with a comma behind it. -/
theorem commaSeparated_reverse {α : Type} (f : α → List Kind) (x : α) (xs : List α) :
    commaSeparated ((x :: xs).reverse.map f)
      = xs.reverse.flatMap (fun y => f y ++ [.symbol ',']) ++ f x := by
  rw [List.reverse_cons]
  induction xs.reverse with
  | nil => simp [commaSeparated, List.intercalate]
  | cons y ys ih =>
    rw [List.cons_append, List.map_cons, commaSeparated_cons]
    cases ys with
    | nil => simp
    | cons z ys =>
      rw [List.cons_append, List.map_cons, commaSeparated_cons] at ih
      simp_all

namespace Step

variable {σ α : Type}

/-- What holds of the result of a step. Of a token that cannot stand where it does nothing is
said. -/
def Satisfies (more : σ → Prop) (finished : α → Prop) : Step σ α → Prop
  | .more s => more s
  | .finished a => finished a
  | .stuck => True

/-- The state in which more must follow. -/
def more? : Step σ α → Option σ
  | .more s => some s
  | _ => none

/-- A step with a state is one after which more must follow. -/
theorem more?_eq_some {r : Step σ α} {s : σ} (h : r.more? = some s) : r = .more s := by
  cases r <;> cases h
  rfl

end Step

/-- Tokens take a state to another, one after the other. -/
def Takes {σ : Type} (next : σ → Kind → Option σ) (s : σ) (ks : List Kind) (s' : σ) : Prop :=
  ks.foldlM next s = some s'

namespace Takes

variable {σ τ : Type} {next : σ → Kind → Option σ} {s s₁ s' : σ} {k : Kind} {ks ks' : List Kind}

/-- The first token is taken, and then the others. -/
theorem cons_iff : Takes next s (k :: ks) s' ↔ ∃ s₁, next s k = some s₁ ∧ Takes next s₁ ks s' := by
  simp [Takes, List.foldlM_cons, Option.bind_eq_some_iff]

theorem cons (h : next s k = some s₁) (h' : Takes next s₁ ks s') : Takes next s (k :: ks) s' :=
  cons_iff.2 ⟨s₁, h, h'⟩

theorem nil (s : σ) : Takes next s [] s := rfl

theorem one (h : next s k = some s') : Takes next s [k] s' :=
  cons h (nil s')

theorem append (h : Takes next s ks s₁) (h' : Takes next s₁ ks' s') :
    Takes next s (ks ++ ks') s' := by
  unfold Takes at *
  rw [List.foldlM_append, h]
  exact h'

/-- Tokens are taken in two parts through a state between them. -/
theorem append_iff :
    Takes next s (ks ++ ks') s' ↔ ∃ s₁, Takes next s ks s₁ ∧ Takes next s₁ ks' s' := by
  simp only [Takes, List.foldlM_append, Option.bind_eq_bind, Option.bind_eq_some_iff]

/-- Only the first token sees the state that the others come from. -/
theorem of_first (h : Takes next s₁ ks s') (hks : ks ≠ [])
    (hnext : ∀ k s₂, next s₁ k = some s₂ → next s k = some s₂) : Takes next s ks s' := by
  cases ks with
  | nil => exact absurd rfl hks
  | cons k ks =>
    obtain ⟨s₂, hk, h⟩ := cons_iff.1 h
    exact cons (hnext k s₂ hk) h

/-- What a part of a state does, the whole state does. -/
theorem lift {next' : τ → Kind → Option τ} (f : σ → τ) (h : Takes next s ks s')
    (hf : ∀ s k s', next s k = some s' → next' (f s) k = some (f s')) :
    Takes next' (f s) ks (f s') := by
  induction ks generalizing s with
  | nil =>
    obtain rfl : s = s' := Option.some.inj h
    exact nil _
  | cons k ks ih =>
    obtain ⟨s₁, hk, h⟩ := cons_iff.1 h
    exact cons (hf s k s₁ hk) (ih h)

end Takes

namespace Reader

/-! ## The tokens that were taken -/

/-- The tokens of terms with the operators behind them, last first. -/
def spelledDone : List (Term × BinaryOp) → List Kind
  | [] => []
  | (t, op) :: done => spelledDone done ++ (Spelling.term t ++ [.symbol op.symbol])

/-- The tokens of unary operators, last first. -/
def spelledUnary : List UnaryOp → List Kind
  | [] => []
  | op :: ops => spelledUnary ops ++ [.symbol op.symbol]

/-- The tokens of arguments with the commas behind them, last first. -/
def spelledArguments : List Expr → List Kind
  | [] => []
  | e :: es => spelledArguments es ++ (Spelling.expr e ++ [.symbol ','])

/-- The tokens of a call before its parenthesis. -/
def CallHead.spelled : CallHead → List Kind
  | ⟨none, name⟩ => [.name name]
  | ⟨some r, name⟩ => [.name r, .symbol '.', .name name]

/-- The tokens before a term: the terms already read with their operators, and the unary operators
that wait for it. -/
def Operands.spelled (o : Operands) : List Kind :=
  spelledDone o.done ++ spelledUnary o.unary

/-- The tokens around a nested expression, up to where it begins. -/
def ExprFrame.spelled : ExprFrame → List Kind
  | .paren outer => outer.spelled ++ [.symbol '(']
  | .index name outer => outer.spelled ++ [.name name, .symbol '[']
  | .argument head before outer =>
    outer.spelled ++ (head.spelled ++ .symbol '(' :: spelledArguments before)

/-- The tokens around nested expressions, the outermost first. -/
def spelledFrames : List ExprFrame → List Kind
  | [] => []
  | f :: frames => spelledFrames frames ++ f.spelled

/-- The tokens that the reader has taken. -/
def ExprReader.spelled : ExprReader → List Kind
  | .term now frames => spelledFrames frames ++ now.spelled
  | .named name now frames => spelledFrames frames ++ (now.spelled ++ [.name name])
  | .member r now frames => spelledFrames frames ++ (now.spelled ++ [.name r, .symbol '.'])
  | .callOpen head now frames => spelledFrames frames ++ (now.spelled ++ head.spelled)
  | .arguments head now frames =>
    spelledFrames frames ++ (now.spelled ++ (head.spelled ++ [.symbol '(']))
  | .operator now last frames =>
    spelledFrames frames ++ (spelledDone now.done ++ Spelling.term last)

/-- A term under unary operators is spelled behind them. -/
theorem Operands.spelling_wrap (o : Operands) (t : Term) :
    Spelling.term (o.wrap t) = spelledUnary o.unary ++ Spelling.term t := by
  unfold Operands.wrap
  induction o.unary generalizing t with
  | nil => rfl
  | cons op ops ih =>
    rw [List.foldl_cons, ih]
    simp [spelledUnary, Spelling.term]

/-- The terms already read, a term and what follows it are an expression. -/
theorem spelledDone_append (done : List (Term × BinaryOp)) (t : Term)
    (tail : List (BinaryOp × Term)) :
    spelledDone done ++ (Spelling.term t ++ Spelling.operands tail)
      = Spelling.expr (Operands.close.go done t tail) := by
  induction done generalizing t tail with
  | nil => simp [spelledDone, Operands.close.go, Spelling.expr]
  | cons p done ih =>
    obtain ⟨before, op⟩ := p
    rw [Operands.close.go, ← ih]
    simp [spelledDone, Spelling.operands]

/-- Arguments are spelled one by one. -/
theorem arguments_eq_map (es : List Expr) : Spelling.arguments es = es.map Spelling.expr := by
  induction es with
  | nil => rfl
  | cons e es ih => rw [Spelling.arguments, ih, List.map_cons]

/-- The arguments already read stand in order, each with a comma behind it. -/
theorem spelledArguments_eq (es : List Expr) :
    spelledArguments es = es.reverse.flatMap fun e => Spelling.expr e ++ [.symbol ','] := by
  induction es with
  | nil => rfl
  | cons e es ih => simp [spelledArguments, ih]

/-- A call is spelled by its head and its arguments in parentheses. -/
theorem CallHead.spelling_call (h : CallHead) (args : List Expr) :
    Spelling.call (h.call args) = h.spelled ++ .symbol '('
      :: (commaSeparated (args.reverse.map Spelling.expr) ++ [.symbol ')']) := by
  obtain ⟨r, name⟩ := h
  cases r <;> simp [CallHead.call, Spelling.call, CallHead.spelled, arguments_eq_map]

theorem CallHead.spelling_call_nil (h : CallHead) :
    Spelling.call (h.call []) = h.spelled ++ [.symbol '(', .symbol ')'] := by
  rw [h.spelling_call]
  rfl

/-- The last argument of a call goes behind the arguments before it. -/
theorem CallHead.spelling_call_cons (h : CallHead) (e : Expr) (before : List Expr) :
    Spelling.call (h.call (e :: before)) = h.spelled ++ .symbol '('
      :: (spelledArguments before ++ (Spelling.expr e ++ [.symbol ')'])) := by
  rw [h.spelling_call, commaSeparated_reverse, spelledArguments_eq, List.append_assoc]

/-- A token that stands for an operator is its symbol. -/
theorem eq_symbol_of_binaryOp? {k : Kind} {op : BinaryOp} (h : binaryOp? k = some op) :
    k = .symbol op.symbol := by
  cases k with
  | symbol c =>
    change BinaryOp.all.find? (fun op => op.symbol == c) = some op at h
    have hc := List.find?_some h
    rw [beq_iff_eq.1 hc]
  | _ => cases h

namespace ExprReader

/-- The step adds its token, or it finishes the expression that the tokens before it spell. -/
def Adds (before : List Kind) (k : Kind) : Step ExprReader Expr → Prop :=
  Step.Satisfies (fun r => r.spelled = before ++ [k]) fun e => Spelling.expr e = before

/-- Nothing has been taken at the start. -/
@[simp]
theorem spelled_start : start.spelled = [] := rfl

/-- Behind a term the tokens of the term have been taken. -/
theorem spelled_afterTerm (now : Operands) (frames : List ExprFrame) (t : Term) :
    (afterTerm now frames t).spelled
      = spelledFrames frames ++ (now.spelled ++ Spelling.term t) := by
  simp [afterTerm, ExprReader.spelled, Operands.spelled, Operands.spelling_wrap]

/-- A keyword that names a constant is its token. -/
theorem eq_spelling_of_constant? {k : Keyword} {c : NamedConstant} (h : constant? k = some c) :
    Kind.keyword k = c.spelling := by
  cases k <;> cases h <;> rfl

/-- The beginning of a term is added. -/
theorem stepTerm_adds (now : Operands) (frames : List ExprFrame) (k : Kind) :
    Adds (spelledFrames frames ++ now.spelled) k (stepTerm now frames k) := by
  cases k with
  | integer n =>
    simp only [stepTerm, Adds, Step.Satisfies, spelled_afterTerm]
    simp [Spelling.term]
  | string s =>
    simp only [stepTerm, Adds, Step.Satisfies, spelled_afterTerm]
    simp [Spelling.term]
  | keyword k =>
    unfold stepTerm
    dsimp only
    split
    · next c hc =>
      rw [eq_spelling_of_constant? hc]
      simp only [Adds, Step.Satisfies, spelled_afterTerm]
      simp [Spelling.term]
    · trivial
  | symbol c =>
    unfold stepTerm
    dsimp only
    split <;> simp [Adds, Step.Satisfies, ExprReader.spelled, spelledFrames, ExprFrame.spelled,
      Operands.spelled, spelledDone, spelledUnary, UnaryOp.symbol]
  | name s => simp [stepTerm, Adds, Step.Satisfies, ExprReader.spelled]

/-- The token that closes a frame is added. -/
theorem stepClose_adds (e : Expr) (frames : List ExprFrame) (k : Kind) :
    Adds (spelledFrames frames ++ Spelling.expr e) k (stepClose e frames k) := by
  unfold stepClose
  split <;> simp only [Adds, Step.Satisfies, spelled_afterTerm] <;>
    simp [ExprReader.spelled, spelledFrames, ExprFrame.spelled, Operands.spelled, spelledDone,
      spelledUnary, spelledArguments, Spelling.term, CallHead.spelling_call_cons]

/-- A token behind a term is added. -/
theorem stepOperator_adds (now : Operands) (last : Term) (frames : List ExprFrame) (k : Kind) :
    Adds (spelledFrames frames ++ (spelledDone now.done ++ Spelling.term last)) k
      (stepOperator now last frames k) := by
  unfold stepOperator
  split
  · next op hop =>
    rw [eq_symbol_of_binaryOp? hop]
    simp [Adds, Step.Satisfies, ExprReader.spelled, Operands.spelled, spelledDone, spelledUnary]
  · have hclose := spelledDone_append now.done last []
    rw [Spelling.operands, List.append_nil] at hclose
    rw [hclose]
    exact stepClose_adds (now.close last) frames k

/-- A token behind a name is added, whatever the name turns out to be. -/
theorem stepNamed_adds (name : String) (now : Operands) (frames : List ExprFrame) (k : Kind) :
    Adds (spelledFrames frames ++ (now.spelled ++ [.name name])) k
      (stepNamed name now frames k) := by
  -- if nothing goes on with the name, it was a variable, and the token comes behind a term
  have hvar := stepOperator_adds { now with unary := [] } (now.wrap (.var name)) frames k
  rw [Operands.spelling_wrap] at hvar
  unfold stepNamed
  split
  · simp [Adds, Step.Satisfies, ExprReader.spelled, spelledFrames, ExprFrame.spelled,
      Operands.spelled, spelledDone, spelledUnary]
  · simp [Adds, Step.Satisfies, ExprReader.spelled, CallHead.spelled]
  · simp [Adds, Step.Satisfies, ExprReader.spelled]
  · simpa [Operands.spelled, Spelling.term] using hvar

/-- The first argument of a call begins like any expression. -/
theorem step_arguments {head : CallHead} {now : Operands} {frames : List ExprFrame} {k : Kind}
    (hk : k ≠ .symbol ')') : step (.arguments head now frames) k
      = stepTerm {} (.argument head [] now :: frames) k := by
  rw [step]
  exact hk

/-- **Each step adds its token to the tokens taken before.** -/
theorem step_adds (r : ExprReader) (k : Kind) : Adds r.spelled k (r.step k) := by
  cases r with
  | term now frames => exact stepTerm_adds now frames k
  | named name now frames => exact stepNamed_adds name now frames k
  | member receiver now frames =>
    cases k with
    | name name => simp [step, Adds, Step.Satisfies, ExprReader.spelled, CallHead.spelled]
    | _ => trivial
  | callOpen head now frames =>
    unfold step
    split <;> simp_all [Adds, Step.Satisfies, ExprReader.spelled]
  | arguments head now frames =>
    by_cases hk : k = .symbol ')'
    · subst hk
      simp only [step, Adds, Step.Satisfies, spelled_afterTerm]
      simp [ExprReader.spelled, Spelling.term, CallHead.spelling_call_nil]
    · have hargument := stepTerm_adds {} (.argument head [] now :: frames) k
      rw [step_arguments hk]
      simpa [ExprReader.spelled, spelledFrames, ExprFrame.spelled, spelledArguments,
        Operands.spelled, spelledDone, spelledUnary] using hargument
  | operator now last frames => exact stepOperator_adds now last frames k

/-! ## Taking the tokens of an expression -/

/-- The reader after a token, if more must follow. -/
def next (r : ExprReader) (k : Kind) : Option ExprReader :=
  (r.step k).more?

/-- Does the token go on with a name? -/
def extendsName : Kind → Bool
  | .symbol '[' => true
  | .symbol '(' => true
  | .symbol '.' => true
  | _ => false

/-- Can the token stand behind an expression? -/
def endsExpr : Kind → Bool
  | .symbol ')' => true
  | .symbol ']' => true
  | .symbol ',' => true
  | .symbol ';' => true
  | _ => false

/-- A term was read, and nothing but a token that goes on with a name can tell whether the reader
knows that it is complete. -/
def Awaits (r : ExprReader) (done : List (Term × BinaryOp)) (last : Term)
    (frames : List ExprFrame) : Prop :=
  ∀ k, extendsName k = false → r.step k = stepOperator { done } last frames k

/-- An expression was read: a token that can stand behind it finishes it. -/
def Completes (r : ExprReader) (e : Expr) (frames : List ExprFrame) : Prop :=
  ∀ k, endsExpr k → r.step k = stepClose e frames k

/-- Behind a term the reader waits for an operator or the end. -/
theorem awaits_afterTerm (now : Operands) (frames : List ExprFrame) (t : Term) :
    Awaits (afterTerm now frames t) now.done (now.wrap t) frames :=
  fun _ _ => rfl

/-- Behind a name it does so too, as if the name were a variable. -/
theorem awaits_named (name : String) (now : Operands) (frames : List ExprFrame) :
    Awaits (.named name now frames) now.done (now.wrap (.var name)) frames := by
  intro k hk
  change stepNamed name now frames k = _
  unfold stepNamed
  split <;> first | rfl | cases hk

/-- Where an operator may come, the expression may be complete. -/
theorem Awaits.completes {r : ExprReader} {done : List (Term × BinaryOp)} {last : Term}
    {frames : List ExprFrame} (h : Awaits r done last frames) :
    Completes r (Operands.close.go done last []) frames := by
  intro k hk
  have hname : extendsName k = false ∧ binaryOp? k = none := by
    unfold endsExpr at hk
    split at hk <;> first | decide | cases hk
  rw [h k hname.1, stepOperator, hname.2]
  rfl

/-- An operator is taken behind a term. -/
theorem Awaits.next_operator {r : ExprReader} {done : List (Term × BinaryOp)} {last : Term}
    {frames : List ExprFrame} (h : Awaits r done last frames) (op : BinaryOp) :
    r.next (.symbol op.symbol) = some (.term { done := (last, op) :: done } frames) := by
  have hname : extendsName (.symbol op.symbol) = false := by
    cases op <;> rfl
  rw [next, h _ hname, stepOperator, binaryOp?, BinaryOp.ofSymbol?_symbol]
  rfl

/-- A token that can stand behind an expression closes its frame. -/
theorem Completes.next_eq {r : ExprReader} {e : Expr} {frames : List ExprFrame}
    (h : Completes r e frames) {k : Kind} (hk : endsExpr k) :
    r.next k = (stepClose e frames k).more? :=
  congrArg Step.more? (h k hk)

theorem call_ne_nil (c : Call) : Spelling.call c ≠ [] := by
  obtain ⟨receiver, name, args⟩ := c
  simp [Spelling.call]

theorem expr_ne_nil (e : Expr) : Spelling.expr e ≠ [] := by
  obtain ⟨head, tail⟩ := e
  cases head <;> simp [Spelling.expr, Spelling.term, call_ne_nil]

/-- The first argument of a call is read like any expression. -/
theorem takes_firstArgument {head : CallHead} {now : Operands} {frames : List ExprFrame} {e : Expr}
    {r : ExprReader}
    (h : Takes next (.term {} (.argument head [] now :: frames)) (Spelling.expr e) r) :
    Takes next (.arguments head now frames) (Spelling.expr e) r := by
  refine h.of_first (expr_ne_nil e) ?_
  intro k r₁ hk
  have hparen : k ≠ .symbol ')' := by
    rintro rfl
    cases hk
  rw [next, step_arguments hparen]
  exact hk

mutual

/-- A reader takes the tokens of an expression, whatever the expression is nested in. -/
theorem takes_expr (e : Expr) (frames : List ExprFrame) :
    ∃ r, Takes next (.term {} frames) (Spelling.expr e) r ∧ Completes r e frames := by
  obtain ⟨head, tail⟩ := e
  obtain ⟨r₁, h₁, hr₁⟩ := takes_term head {} frames
  obtain ⟨r₂, h₂, hr₂⟩ := takes_operands tail hr₁
  exact ⟨r₂, h₁.append h₂, hr₂⟩

/-- A reader takes operators with their terms. -/
theorem takes_operands (tail : List (BinaryOp × Term)) {r : ExprReader}
    {done : List (Term × BinaryOp)} {last : Term} {frames : List ExprFrame}
    (hr : Awaits r done last frames) :
    ∃ r', Takes next r (Spelling.operands tail) r' ∧
      Completes r' (Operands.close.go done last tail) frames := by
  match tail with
  | [] => exact ⟨r, .nil r, hr.completes⟩
  | (op, t) :: tail =>
    obtain ⟨r₁, h₁, hr₁⟩ := takes_term t { done := (last, op) :: done } frames
    obtain ⟨r₂, h₂, hr₂⟩ := takes_operands tail hr₁
    exact ⟨r₂, .cons (hr.next_operator op) (h₁.append h₂), hr₂⟩

/-- A reader takes the tokens of a term, and then waits for an operator or the end. -/
theorem takes_term (t : Term) (now : Operands) (frames : List ExprFrame) :
    ∃ r, Takes next (.term now frames) (Spelling.term t) r ∧
      Awaits r now.done (now.wrap t) frames := by
  match t with
  | .integer n => exact ⟨_, .one rfl, awaits_afterTerm now frames _⟩
  | .string s => exact ⟨_, .one rfl, awaits_afterTerm now frames _⟩
  | .constant c => cases c <;> exact ⟨_, .one rfl, awaits_afterTerm now frames _⟩
  | .paren e =>
    obtain ⟨r, h, hr⟩ := takes_expr e (.paren now :: frames)
    exact ⟨_, .cons rfl (h.append (.one (hr.next_eq rfl))), awaits_afterTerm now frames _⟩
  | .unary op t =>
    obtain ⟨r, h, hr⟩ := takes_term t { now with unary := op :: now.unary } frames
    have hop : next (.term now frames) (.symbol op.symbol)
        = some (.term { now with unary := op :: now.unary } frames) := by
      cases op <;> rfl
    exact ⟨r, .cons hop h, hr⟩
  | .var name => exact ⟨_, .one rfl, awaits_named name now frames⟩
  | .index name e =>
    obtain ⟨r, h, hr⟩ := takes_expr e (.index name now :: frames)
    exact ⟨_, .cons rfl (.cons rfl (h.append (.one (hr.next_eq rfl)))),
      awaits_afterTerm now frames _⟩
  | .call c =>
    -- the reader keeps the arguments last first
    obtain ⟨receiver, name, args⟩ := c
    have h := takes_arguments args ⟨receiver, name⟩ now frames
    rw [CallHead.call, List.reverse_reverse] at h
    refine ⟨_, ?_, awaits_afterTerm now frames _⟩
    cases receiver with
    | none => exact .cons rfl (.cons rfl h)
    | some r => exact .cons rfl (.cons rfl (.cons rfl (.cons rfl h)))

/-- A reader takes the arguments of a call. -/
theorem takes_arguments (args : List Expr) (head : CallHead) (now : Operands)
    (frames : List ExprFrame) :
    Takes next (.arguments head now frames)
      (commaSeparated (Spelling.arguments args) ++ [.symbol ')'])
      (afterTerm now frames (.call (head.call args.reverse))) := by
  match args with
  | [] => exact .one rfl
  | e :: es =>
    obtain ⟨r, h, hr⟩ := takes_expr e (.argument head [] now :: frames)
    rw [Spelling.arguments, commaSeparated_cons, List.append_assoc, List.reverse_cons]
    exact (takes_firstArgument h).append (takes_moreArguments es hr)

/-- After an argument come a comma and the next one, or the end of the call. -/
theorem takes_moreArguments (es : List Expr) {e : Expr} {r : ExprReader} {head : CallHead}
    {before : List Expr} {now : Operands} {frames : List ExprFrame}
    (hr : Completes r e (.argument head before now :: frames)) :
    Takes next r ((Spelling.arguments es).flatMap (.symbol ',' :: ·) ++ [.symbol ')'])
      (afterTerm now frames (.call (head.call (es.reverse ++ e :: before)))) := by
  match es with
  | [] => exact .one (hr.next_eq rfl)
  | e' :: es =>
    obtain ⟨r₁, h₁, hr₁⟩ := takes_expr e' (.argument head (e :: before) now :: frames)
    have h₂ := takes_moreArguments es hr₁
    rw [Spelling.arguments, List.flatMap_cons, List.append_assoc, List.cons_append,
      List.reverse_cons, List.append_assoc]
    exact .cons (hr.next_eq rfl) (h₁.append h₂)

end

end ExprReader

end Reader

end JackCompiler
