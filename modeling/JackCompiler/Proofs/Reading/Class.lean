import JackCompiler.Proofs.Reading.Body
import JackCompiler.Syntax.Reader.Class
/-!
# Reading classes

The tokens of a class are its spelling, and no others: a list of tokens is read as a class exactly
when their kinds spell it and each of its declarations declares something. Where the tokens stand
makes no difference, and no list of tokens spells two classes.
-/

namespace JackCompiler

open Token (Kind)

namespace Reader

theorem eq_spelling_of_varType? {k : Kind} {type : VarType} (h : varType? k = some type) :
    k = type.spelling := by
  unfold varType? at h
  split at h <;> cases h <;> rfl

@[simp]
theorem varType?_spelling (type : VarType) : varType? type.spelling = some type := by
  cases type <;> rfl

/-! ## Declarations of variables -/

namespace VarDecReader

/-- The tokens that the reader has taken. -/
def spelled : VarDecReader → List Kind
  | .varType => []
  | .varName type names =>
    type.spelling :: names.reverse.flatMap fun name => [.name name] ++ [.symbol ',']
  | .separator type names =>
    type.spelling :: commaSeparated (names.reverse.map fun name => [.name name])

/-- Behind a name there is a name. -/
def WellFormed : VarDecReader → Prop
  | .separator _ names => names ≠ []
  | _ => True

/-- **Each step adds its token**, and what is declared in the end has a name. -/
theorem step_adds {d : VarDecReader} (hd : d.WellFormed) (k : Kind) :
    (d.step k).Satisfies (fun d' => d'.WellFormed ∧ d'.spelled = d.spelled ++ [k])
      fun dec => dec.names ≠ [] ∧ Spelling.varDec dec = d.spelled ++ [k] := by
  unfold step
  split
  · split
    · next type htype =>
      rw [eq_spelling_of_varType? htype]
      exact ⟨trivial, rfl⟩
    · trivial
  · refine ⟨List.cons_ne_nil _ _, ?_⟩
    simp only [spelled, commaSeparated_reverse]
    rfl
  · next type names =>
    obtain ⟨name, names, rfl⟩ := List.exists_cons_of_ne_nil hd
    refine ⟨trivial, ?_⟩
    simp only [spelled, commaSeparated_reverse]
    simp
  · exact ⟨mt List.reverse_eq_nil_iff.1 hd, rfl⟩
  · trivial

/-- The reader after a token, if more must follow. -/
def next (d : VarDecReader) (k : Kind) : Option VarDecReader :=
  (d.step k).more?

theorem takes_names (type : VarType) (names rest : List String) :
    Takes next (.separator type names)
      ((rest.map fun name => [.name name]).flatMap (.symbol ',' :: ·))
      (.separator type (rest.reverse ++ names)) := by
  induction rest generalizing names with
  | nil => exact .nil _
  | cons name rest ih =>
    rw [List.reverse_cons, List.append_assoc]
    exact .cons rfl (.cons rfl (ih (name :: names)))

/-- A reader takes the tokens of a declaration, and the semicolon finishes it. -/
theorem takes_varDec {d : VarDec} (hd : d.names ≠ []) :
    ∃ ks r, Spelling.varDec d = ks ++ [.symbol ';'] ∧ Takes next .varType ks r ∧
      r.step (.symbol ';') = .finished d := by
  obtain ⟨type, names⟩ := d
  obtain ⟨name, names, rfl⟩ := List.exists_cons_of_ne_nil hd
  have htype : next .varType type.spelling = some (.varName type []) := by
    simp [next, step, Step.more?]
  refine ⟨_, .separator type (names.reverse ++ [name]), rfl, .cons htype ?_, by simp [step]⟩
  rw [List.map_cons, commaSeparated_cons]
  exact .cons rfl (takes_names type [name] names)

end VarDecReader

/-! ## Signatures -/

/-- The token of the type of a result. -/
def resultSpelling : Option VarType → Kind
  | some type => type.spelling
  | none => .keyword .void

/-- The tokens of a parameter. -/
def parameterSpelling (p : Parameter) : List Kind := [p.type.spelling, .name p.name]

/-- The tokens of a signature before its parameters. -/
def spelledHead (s : Signature) : List Kind :=
  [.keyword (Spelling.subroutineKind s.kind), resultSpelling s.result, .name s.name, .symbol '(']

theorem spelling_signature (s : Signature) :
    Spelling.signature s = spelledHead s
      ++ (commaSeparated (s.parameters.map parameterSpelling) ++ [.symbol ')']) := by
  obtain ⟨kind, result, name, parameters⟩ := s
  cases result <;> rfl

namespace SignatureReader

/-- The tokens that the reader has taken, with the keyword before them. -/
def spelled : SignatureReader → List Kind
  | .resultType kind => [.keyword (Spelling.subroutineKind kind)]
  | .subroutineName kind result =>
    [.keyword (Spelling.subroutineKind kind), resultSpelling result]
  | .parenthesis s =>
    [.keyword (Spelling.subroutineKind s.kind), resultSpelling s.result, .name s.name]
  | .parameters s => spelledHead s
  | .parameterType s =>
    spelledHead s ++ s.parameters.reverse.flatMap fun p => parameterSpelling p ++ [.symbol ',']
  | .parameterName s type =>
    spelledHead s ++ (s.parameters.reverse.flatMap (fun p => parameterSpelling p ++ [.symbol ','])
      ++ [type.spelling])
  | .separator s => spelledHead s ++ commaSeparated (s.parameters.reverse.map parameterSpelling)

/-- There are no parameters before the first, and there is one before a comma. -/
def WellFormed : SignatureReader → Prop
  | .parenthesis s => s.parameters = []
  | .parameters s => s.parameters = []
  | .separator s => s.parameters ≠ []
  | _ => True

/-- What a step keeps. -/
def Adds (before : List Kind) (k : Kind) : Step SignatureReader Signature → Prop :=
  Step.Satisfies (fun r => r.WellFormed ∧ r.spelled = before ++ [k])
    fun s => Spelling.signature s = before ++ [k]

theorem stepType_adds (s : Signature) (k : Kind) :
    Adds (spelledHead s
      ++ s.parameters.reverse.flatMap fun p => parameterSpelling p ++ [.symbol ',']) k
      (stepType s k) := by
  unfold stepType
  split
  · next type htype =>
    rw [eq_spelling_of_varType? htype]
    exact ⟨trivial, by rw [spelled, List.append_assoc]⟩
  · trivial

theorem close_adds (s : Signature) :
    Adds (spelledHead s ++ commaSeparated (s.parameters.reverse.map parameterSpelling))
      (.symbol ')') (close s) := by
  change Spelling.signature _ = _
  rw [spelling_signature, List.append_assoc]
  rfl

/-- **Each step adds its token to the tokens taken before.** -/
theorem step_adds {r : SignatureReader} (hr : r.WellFormed) (k : Kind) :
    Adds r.spelled k (r.step k) := by
  unfold step
  split
  · exact ⟨trivial, rfl⟩
  · split
    · next type htype =>
      rw [eq_spelling_of_varType? htype]
      exact ⟨trivial, rfl⟩
    · trivial
  · exact ⟨rfl, rfl⟩
  · exact ⟨hr, rfl⟩
  · next s =>
    have h := close_adds s
    rwa [show s.parameters = [] from hr, List.reverse_nil, List.map_nil] at h
  · next s _ =>
    have h := stepType_adds s k
    rwa [show s.parameters = [] from hr, List.reverse_nil, List.flatMap_nil, List.append_nil] at h
  · exact stepType_adds _ _
  · refine ⟨List.cons_ne_nil _ _, ?_⟩
    simp only [spelled, commaSeparated_reverse]
    simp [spelledHead, parameterSpelling]
  · next s =>
    obtain ⟨p, ps, hp⟩ := List.exists_cons_of_ne_nil hr
    refine ⟨trivial, ?_⟩
    simp only [spelled, hp, commaSeparated_reverse]
    simp
  · exact close_adds _
  · trivial

/-- The reader after a token, if more must follow. -/
def next (r : SignatureReader) (k : Kind) : Option SignatureReader :=
  (r.step k).more?

theorem next_parameterType (s : Signature) (type : VarType) :
    next (.parameterType s) type.spelling = some (.parameterName s type) := by
  simp [next, step, stepType, Step.more?]

theorem takes_parameters (s : Signature) (ps : List Parameter) :
    Takes next (.separator s) ((ps.map parameterSpelling).flatMap (.symbol ',' :: ·))
      (.separator { s with parameters := ps.reverse ++ s.parameters }) := by
  induction ps generalizing s with
  | nil => exact .nil _
  | cons p ps ih =>
    have h := ih { s with parameters := p :: s.parameters }
    rw [List.reverse_cons, List.append_assoc]
    exact .cons rfl (.cons (next_parameterType s p.type) (.cons rfl h))

/-- A reader takes the tokens of a signature, and the parenthesis finishes it. -/
theorem takes_signature (s : Signature) :
    ∃ ks r, Spelling.signature s
        = .keyword (Spelling.subroutineKind s.kind) :: (ks ++ [.symbol ')']) ∧
      Takes next (.resultType s.kind) ks r ∧ r.step (.symbol ')') = .finished s := by
  obtain ⟨kind, result, name, parameters⟩ := s
  have hresult : next (.resultType kind) (resultSpelling result)
      = some (.subroutineName kind result) := by
    cases result with
    | none => rfl
    | some type => cases type <;> rfl
  rw [spelling_signature, spelledHead]
  cases parameters with
  | nil => exact ⟨_, _, rfl, .cons hresult (.cons rfl (.one rfl)), rfl⟩
  | cons p ps =>
    refine ⟨_, .separator ⟨kind, result, name, ps.reverse ++ [p]⟩, rfl,
      .cons hresult (.cons rfl (.cons rfl ?_)), ?_⟩
    · have hfirst : next (.parameters ⟨kind, result, name, []⟩) p.type.spelling
          = some (.parameterName ⟨kind, result, name, []⟩ p.type) := by
        cases p.type <;> rfl
      rw [List.map_cons, commaSeparated_cons]
      exact .cons hfirst (.cons rfl (takes_parameters ⟨kind, result, name, [p]⟩ ps))
    · simp [step, close]

end SignatureReader

/-! ## Classes -/

/-- The tokens of the variables of a class. -/
def spelledVars (vars : List (ClassVarKind × VarDec)) : List Kind :=
  vars.flatMap fun (kind, d) => .keyword (Spelling.classVarKind kind) :: Spelling.varDec d

/-- The tokens of local variables. -/
def spelledLocals (locals : List VarDec) : List Kind :=
  locals.flatMap fun d => .keyword .var :: Spelling.varDec d

/-- The tokens of a class up to a member. -/
def ClassHead.spelled (c : ClassHead) : List Kind :=
  .keyword .class :: .name c.name :: .symbol '{'
    :: (spelledVars c.vars.reverse ++ c.subroutines.reverse.flatMap Spelling.subroutine)

/-- Every declaration so far declares something. -/
def ClassHead.Declares (c : ClassHead) : Prop :=
  (∀ v ∈ c.vars, v.2.names ≠ []) ∧ ∀ sub ∈ c.subroutines, ∀ d ∈ sub.locals, d.names ≠ []

namespace ClassReader

/-- The tokens that the reader has taken. -/
def spelled : ClassReader → List Kind
  | .start => []
  | .className => [.keyword .class]
  | .classBrace name => [.keyword .class, .name name]
  | .members c => c.spelled
  | .classVar c kind d => c.spelled ++ .keyword (Spelling.classVarKind kind) :: d.spelled
  | .signature c s => c.spelled ++ s.spelled
  | .bodyBrace c s => c.spelled ++ Spelling.signature s
  | .bodyStart c s before =>
    c.spelled ++ (Spelling.signature s ++ .symbol '{' :: spelledLocals before.reverse)
  | .localVar c s before d =>
    c.spelled ++ (Spelling.signature s
      ++ .symbol '{' :: (spelledLocals before.reverse ++ .keyword .var :: d.spelled))
  | .body c s locals b =>
    c.spelled ++ (Spelling.signature s
      ++ .symbol '{' :: (spelledLocals locals.reverse ++ b.spelled))
  | .closed c => c.spelling

/-- Every declaration declares something, and the variables of the class come before its
subroutines. -/
def WellFormed : ClassReader → Prop
  | .start => True
  | .className => True
  | .classBrace _ => True
  | .members c => c.Declares
  | .classVar c _ d => c.Declares ∧ c.subroutines = [] ∧ d.WellFormed
  | .signature c s => c.Declares ∧ s.WellFormed
  | .bodyBrace c _ => c.Declares
  | .bodyStart c _ before => c.Declares ∧ ∀ d ∈ before, d.names ≠ []
  | .localVar c _ before d => c.Declares ∧ (∀ d ∈ before, d.names ≠ []) ∧ d.WellFormed
  | .body c _ locals _ => c.Declares ∧ ∀ d ∈ locals, d.names ≠ []
  | .closed c => c.Declares

/-- What a step keeps. -/
def Adds (before : List Kind) (k : Kind) (next : Option ClassReader) : Prop :=
  ∀ r, next = some r → r.WellFormed ∧ r.spelled = before ++ [k]

theorem stepMember_adds {c : ClassHead} (hc : c.Declares) (k : Kind) :
    Adds c.spelled k (stepMember c k) := by
  unfold stepMember
  intro r hr
  split at hr
  · cases hr
    refine ⟨?_, ?_⟩
    · simpa [WellFormed, Class.Declares, ClassHead.Declares] using hc
    · simp [spelled, Class.spelling, ClassHead.spelled, spelledVars]
  -- a variable of the class can only come as long as there is no subroutine
  · split at hr <;> cases hr
    next hempty => exact ⟨⟨hc, List.isEmpty_iff.1 hempty, trivial⟩, rfl⟩
  · split at hr <;> cases hr
    next hempty => exact ⟨⟨hc, List.isEmpty_iff.1 hempty, trivial⟩, rfl⟩
  all_goals cases hr
  all_goals exact ⟨⟨hc, trivial⟩, rfl⟩

theorem stepBody_adds {c : ClassHead} {s : Signature} {locals : List VarDec} (hc : c.Declares)
    (hl : ∀ d ∈ locals, d.names ≠ []) (b : BodyReader) (k : Kind) :
    Adds (ClassReader.body c s locals b).spelled k (stepBody c s locals b k) := by
  have h := b.step_adds k
  intro r hr
  unfold stepBody at hr
  split at hr
  · next b' hb =>
    rw [hb] at h
    have h : b'.spelled = b.spelled ++ [k] := h
    cases hr
    exact ⟨⟨hc, hl⟩, by simp [spelled, h]⟩
  · next block hb =>
    rw [hb] at h
    have h : Spelling.statements block ++ [.symbol '}'] = b.spelled ++ [k] := h
    cases hr
    refine ⟨⟨hc.1, ?_⟩, ?_⟩
    · simpa using ⟨hl, hc.2⟩
    · simp [spelled, ClassHead.spelled, Spelling.subroutine, h, spelledLocals]
  · cases hr

/-- A declaration is added to the reader it is read for, token by token. -/
theorem varDec_adds {d : VarDecReader} (hd : d.WellFormed) {k : Kind} (before : List Kind)
    (carryOn : VarDecReader → ClassReader) {close : VarDec → ClassReader}
    (hcarry : ∀ d', d'.WellFormed → (carryOn d').WellFormed ∧
      (carryOn d').spelled = before ++ d'.spelled)
    (hclose : ∀ dec, dec.names ≠ [] → (close dec).WellFormed ∧
      (close dec).spelled = before ++ Spelling.varDec dec) :
    Adds (carryOn d).spelled k (match d.step k with
      | .more d => some (carryOn d)
      | .finished dec => some (close dec)
      | .stuck => none) := by
  have h := d.step_adds hd k
  intro r hr
  split at hr
  · next d' hs =>
    rw [hs] at h
    cases hr
    refine ⟨(hcarry d' h.1).1, ?_⟩
    rw [(hcarry d' h.1).2, (hcarry d hd).2, h.2, List.append_assoc]
  · next dec hs =>
    rw [hs] at h
    cases hr
    refine ⟨(hclose dec h.1).1, ?_⟩
    rw [(hclose dec h.1).2, (hcarry d hd).2, h.2, List.append_assoc]
  · cases hr

/-- **Each step adds its token to the tokens taken before.** -/
theorem step_adds {r : ClassReader} (hr : r.WellFormed) (k : Kind) :
    Adds r.spelled k (r.step k) := by
  unfold step
  split
  · rintro r' ⟨⟩
    exact ⟨trivial, rfl⟩
  · rintro r' ⟨⟩
    exact ⟨trivial, rfl⟩
  · rintro r' ⟨⟩
    exact ⟨by simp [WellFormed, ClassHead.Declares], rfl⟩
  · exact stepMember_adds hr _
  · next c kind d =>
    obtain ⟨hc, hsub, hd⟩ := hr
    refine varDec_adds hd (c.spelled ++ [.keyword (Spelling.classVarKind kind)]) (.classVar c kind)
      (fun d' hd' => ⟨⟨hc, hsub, hd'⟩, by simp [spelled]⟩) fun dec hdec => ⟨?_, ?_⟩
    · exact ⟨List.forall_mem_cons.2 ⟨hdec, hc.1⟩, hc.2⟩
    · simp [spelled, ClassHead.spelled, hsub, spelledVars]
  · next c s =>
    obtain ⟨hc, hs⟩ := hr
    have h := s.step_adds hs k
    intro r' hr'
    split at hr'
    · next s' hstep =>
      rw [hstep] at h
      have h : s'.WellFormed ∧ s'.spelled = s.spelled ++ [k] := h
      cases hr'
      exact ⟨⟨hc, h.1⟩, by simp [spelled, h.2]⟩
    · next s' hstep =>
      rw [hstep] at h
      have h : Spelling.signature s' = s.spelled ++ [k] := h
      cases hr'
      exact ⟨hc, by simp [spelled, h]⟩
    · cases hr'
  · rintro r' ⟨⟩
    exact ⟨⟨hr, by simp⟩, by simp [spelled, spelledLocals]⟩
  · rintro r' ⟨⟩
    exact ⟨⟨hr.1, hr.2, trivial⟩, by simp [spelled, VarDecReader.spelled]⟩
  · next c s before _ =>
    have h : Adds (ClassReader.body c s before .start).spelled k _ :=
      stepBody_adds hr.1 hr.2 .start k
    simpa [spelled, BodyReader.spelled, BodyReader.start, spelledBlocks, Spelling.statements]
      using h
  · next c s before d =>
    obtain ⟨hc, hbefore, hd⟩ := hr
    refine varDec_adds hd (c.spelled ++ (Spelling.signature s
      ++ .symbol '{' :: (spelledLocals before.reverse ++ [.keyword .var]))) (.localVar c s before)
      (fun d' hd' => ⟨⟨hc, hbefore, hd'⟩, by simp [spelled]⟩) fun dec hdec => ⟨?_, ?_⟩
    · exact ⟨hc, List.forall_mem_cons.2 ⟨hdec, hbefore⟩⟩
    · simp [spelled, spelledLocals]
  · exact stepBody_adds hr.1 hr.2 _ _
  · rintro r' ⟨⟩

/-- All the tokens that were taken can be spelled from the state they lead to. -/
theorem spelled_of_takes {r r' : ClassReader} {ks : List Kind} (h : Takes step r ks r')
    (hr : r.WellFormed) : r'.WellFormed ∧ r'.spelled = r.spelled ++ ks := by
  induction ks generalizing r with
  | nil =>
    obtain rfl : r = r' := Option.some.inj h
    exact ⟨hr, (List.append_nil _).symm⟩
  | cons k ks ih =>
    obtain ⟨r₁, hk, h⟩ := Takes.cons_iff.1 h
    obtain ⟨hr₁, hs₁⟩ := step_adds hr k r₁ hk
    obtain ⟨hr', hs'⟩ := ih h hr₁
    refine ⟨hr', ?_⟩
    rw [hs', hs₁, List.append_assoc]
    rfl

/-! ## Taking the tokens of a class -/

/-- A reader takes a declaration and goes on behind its semicolon. -/
theorem takes_varDec (carryOn : VarDecReader → ClassReader) (close : VarDec → ClassReader)
    (hstep : ∀ d k, step (carryOn d) k = match d.step k with
      | .more d => some (carryOn d)
      | .finished dec => some (close dec)
      | .stuck => none)
    {dec : VarDec} (hdec : dec.names ≠ []) :
    Takes step (carryOn .varType) (Spelling.varDec dec) (close dec) := by
  obtain ⟨ks, d, hks, h, hd⟩ := VarDecReader.takes_varDec hdec
  rw [hks]
  refine (h.lift carryOn ?_).append (.one ?_)
  · intro d k d' hd'
    rw [hstep, Step.more?_eq_some hd']
  · rw [hstep, hd]

theorem takes_classVars (vars : List (ClassVarKind × VarDec)) (hvars : ∀ v ∈ vars, v.2.names ≠ [])
    {c : ClassHead} (hc : c.subroutines = []) :
    Takes step (.members c) (spelledVars vars)
      (.members { c with vars := vars.reverse ++ c.vars }) := by
  induction vars generalizing c with
  | nil => exact .nil _
  | cons v vars ih =>
    obtain ⟨kind, d⟩ := v
    obtain ⟨hd, hvars⟩ := List.forall_mem_cons.1 hvars
    have hkeyword : step (.members c) (.keyword (Spelling.classVarKind kind))
        = some (.classVar c kind .varType) := by
      cases kind <;> simp [step, stepMember, Spelling.classVarKind, hc]
    have hdec : Takes step (.classVar c kind .varType) (Spelling.varDec d)
        (.members { c with vars := (kind, d) :: c.vars }) :=
      takes_varDec (.classVar c kind) (fun d => .members { c with vars := (kind, d) :: c.vars })
        (fun _ _ => rfl) hd
    have hrest := ih hvars (c := { c with vars := (kind, d) :: c.vars }) hc
    rw [List.reverse_cons, List.append_assoc]
    exact .cons hkeyword (hdec.append hrest)

theorem takes_locals (locals : List VarDec) (hlocals : ∀ d ∈ locals, d.names ≠ [])
    {c : ClassHead} {s : Signature} (before : List VarDec) :
    Takes step (.bodyStart c s before) (spelledLocals locals)
      (.bodyStart c s (locals.reverse ++ before)) := by
  induction locals generalizing before with
  | nil => exact .nil _
  | cons d locals ih =>
    obtain ⟨hd, hlocals⟩ := List.forall_mem_cons.1 hlocals
    have hdec : Takes step (.localVar c s before .varType) (Spelling.varDec d)
        (.bodyStart c s (d :: before)) :=
      takes_varDec (.localVar c s before) (fun d => .bodyStart c s (d :: before))
        (fun _ _ => rfl) hd
    rw [List.reverse_cons, List.append_assoc]
    exact .cons rfl (hdec.append (ih hlocals (d :: before)))

/-- A reader takes the statements of a body and the brace behind them. -/
theorem takes_body (block : List Statement) {c : ClassHead} {s : Signature}
    {locals : List VarDec} :
    Takes step (.bodyStart c s locals) (Spelling.statements block ++ [.symbol '}'])
      (.members { c with subroutines :=
        { s with locals := locals.reverse, body := block } :: c.subroutines }) := by
  obtain ⟨b, h, hb⟩ := BodyReader.takes_statements block (BodyReader.atBlock_block [] [])
  have hend : b.step (.symbol '}') = .finished block := by
    rw [hb _ (by decide), List.append_nil, BodyReader.stepBlock, BodyReader.endBlock,
      List.reverse_reverse]
  have hbody : Takes step (.body c s locals .start) (Spelling.statements block ++ [.symbol '}'])
      (.members { c with subroutines :=
        { s with locals := locals.reverse, body := block } :: c.subroutines }) := by
    refine (h.lift (ClassReader.body c s locals) ?_).append (.one ?_)
    · intro b k b' hb'
      rw [step, stepBody, Step.more?_eq_some hb']
    · rw [step, stepBody, hend]
  -- a body begins where a declaration could: `var` is the only token that tells them apart
  refine hbody.of_first (by simp) ?_
  intro k r hk
  have hvar : k ≠ .keyword .var := by
    rintro rfl
    cases hk
  rw [← hk, step, step]
  exact hvar

theorem takes_subroutine (sub : Subroutine) (hsub : ∀ d ∈ sub.locals, d.names ≠ [])
    (c : ClassHead) :
    Takes step (.members c) (Spelling.subroutine sub)
      (.members { c with subroutines := sub :: c.subroutines }) := by
  obtain ⟨s, locals, block⟩ := sub
  obtain ⟨ks, r, hks, h, hr⟩ := SignatureReader.takes_signature s
  have hkeyword : step (.members c) (.keyword (Spelling.subroutineKind s.kind))
      = some (.signature c (.resultType s.kind)) := by
    cases s.kind <;> rfl
  have hsignature : Takes step (.signature c (.resultType s.kind)) (ks ++ [.symbol ')'])
      (.bodyBrace c s) := by
    refine (h.lift (ClassReader.signature c) ?_).append (.one ?_)
    · intro r k r' hr'
      rw [step, Step.more?_eq_some hr']
    · rw [step, hr]
  have hlocals : Takes step (.bodyStart c s []) (spelledLocals locals)
      (.bodyStart c s (locals.reverse ++ [])) := takes_locals locals hsub []
  rw [List.append_nil] at hlocals
  have hbody : Takes step (.bodyStart c s locals.reverse) _ _ := takes_body block
  rw [List.reverse_reverse] at hbody
  rw [Spelling.subroutine, hks]
  exact .cons hkeyword (hsignature.append (.cons rfl (hlocals.append hbody)))

theorem takes_subroutines (subs : List Subroutine)
    (hsubs : ∀ sub ∈ subs, ∀ d ∈ sub.locals, d.names ≠ []) (c : ClassHead) :
    Takes step (.members c) (subs.flatMap Spelling.subroutine)
      (.members { c with subroutines := subs.reverse ++ c.subroutines }) := by
  induction subs generalizing c with
  | nil => exact .nil _
  | cons sub subs ih =>
    obtain ⟨hsub, hsubs⟩ := List.forall_mem_cons.1 hsubs
    rw [List.reverse_cons, List.append_assoc]
    exact (takes_subroutine sub hsub c).append (ih hsubs _)

/-- **A reader takes the tokens of every class** whose declarations declare something. -/
theorem takes_class {c : Class} (hc : c.Declares) : Takes step .start c.spelling (.closed c) := by
  have hvars := takes_classVars c.vars hc.1 (c := ⟨c.name, [], []⟩) rfl
  have hsubs := takes_subroutines c.subroutines hc.2 ⟨c.name, c.vars.reverse ++ [], []⟩
  have hend : step (.members ⟨c.name, c.vars.reverse ++ [], c.subroutines.reverse ++ []⟩)
      (.symbol '}') = some (.closed c) := by
    simp [step, stepMember]
  exact .cons rfl (.cons rfl (.cons rfl (hvars.append (hsubs.append (.one hend)))))

/-- Where the tokens stand makes no difference. -/
theorem foldlM_next_eq_ok {tokens : List Token} {r r' : ClassReader} :
    tokens.foldlM next r = .ok r' ↔ Takes step r (tokens.map (·.kind)) r' := by
  induction tokens generalizing r with
  | nil =>
    simp only [Takes, List.foldlM_nil, List.map_nil, pure, Except.pure, Except.ok.injEq,
      Option.some.injEq]
  | cons t tokens ih =>
    rw [List.map_cons, Takes.cons_iff, List.foldlM_cons, next]
    cases hs : r.step t.kind with
    | none => simp [bind, Except.bind]
    | some r₁ =>
      simp only [Option.some.injEq, exists_eq_left']
      exact ih

theorem finish_eq_ok {r : ClassReader} {c : Class} : r.finish = .ok c ↔ r = .closed c := by
  cases r <;> simp [finish]

end ClassReader

end Reader

/-- A class is read from tokens when the reader goes through all of them and then is at its end. -/
theorem Class.ofTokens_eq_ok_iff_takes {tokens : List Token} {c : Class} :
    Class.ofTokens tokens = .ok c ↔
      Takes Reader.ClassReader.step .start (tokens.map (·.kind)) (.closed c) := by
  rw [← Reader.ClassReader.foldlM_next_eq_ok]
  unfold Class.ofTokens
  cases tokens.foldlM Reader.ClassReader.next .start with
  | error e => simp [bind, Except.bind]
  | ok r => simp [bind, Except.bind, Reader.ClassReader.finish_eq_ok]

/-- What is read is spelled by all the tokens. -/
theorem Class.spelling_of_ofTokens {tokens : List Token} {c : Class}
    (h : Class.ofTokens tokens = .ok c) : c.Declares ∧ c.spelling = tokens.map (·.kind) :=
  Reader.ClassReader.spelled_of_takes (Class.ofTokens_eq_ok_iff_takes.1 h) trivial

/-- **Reading accepts exactly the spellings of classes, and loses nothing.** -/
theorem Class.ofTokens_eq_ok_iff (tokens : List Token) (c : Class) :
    Class.ofTokens tokens = .ok c ↔ tokens.map (·.kind) = c.spelling ∧ c.Declares := by
  constructor
  · intro h
    obtain ⟨hc, hs⟩ := Class.spelling_of_ofTokens h
    exact ⟨hs.symm, hc⟩
  · rintro ⟨hs, hc⟩
    rw [Class.ofTokens_eq_ok_iff_takes, hs]
    exact Reader.ClassReader.takes_class hc

end JackCompiler
