import JackCompiler.Proofs.StorageBounds
import Mathlib.Data.List.DropRight
/-!
# A symbol table is its history

A table comes about by definitions, and by the beginnings of subroutines between them. What it
answers can be read off that history: it counts the definitions of each kind since its counter was
last at zero, and a name stands for its last definition that is still in force, with the number that
the kind had reached by then. A name that is defined again gets a new number and its old one is
given to nobody else, so two names never stand for the same cell.
-/

namespace JackCompiler

/-! ## Histories -/

/-- What can happen to a symbol table. -/
inductive SymbolEvent
  | startSubroutine
  | define (name type : String) (kind : SymbolKind)
  deriving DecidableEq, Repr

/-- Does the event define a variable of the kind? -/
def SymbolEvent.defines (kind : SymbolKind) : SymbolEvent → Bool
  | startSubroutine => false
  | define _ _ k => k = kind

/-- How far a definition reaches. -/
inductive SymbolScope
  /-- To the end of the class. -/
  | ofClass
  /-- To the beginning of the next subroutine. -/
  | ofSubroutine
  deriving DecidableEq, Repr

/-- How far the variables of a kind reach. -/
def SymbolKind.scope : SymbolKind → SymbolScope
  | static | field => .ofClass
  | argument | «local» => .ofSubroutine

namespace SymbolScope

/-- The part of a history whose definitions are still in force: all of it, or what has happened
since a subroutine last began. -/
def period : SymbolScope → List SymbolEvent → List SymbolEvent
  | ofClass, events => events
  | ofSubroutine, events => events.rtakeWhile (· != .startSubroutine)

/-- The name is defined in the scope, and the definition is still in force. -/
def Defines (scope : SymbolScope) (name : String) (events : List SymbolEvent) : Prop :=
  ∃ type kind, kind.scope = scope ∧ .define name type kind ∈ scope.period events

/-- The symbol is that of the last definition of the name in the scope. Its number says how many
variables of its kind were defined before it in the same period. -/
def Latest (scope : SymbolScope) (name : String) (events : List SymbolEvent) (s : Symbol) : Prop :=
  ∃ earlier later,
    scope.period events = earlier ++ .define name s.type s.kind :: later ∧
      (∀ type kind, .define name type kind ∈ later → kind.scope ≠ scope) ∧
      s.kind.scope = scope ∧ s.name = name ∧
      s.index = earlier.countP (SymbolEvent.defines s.kind)

variable {scope : SymbolScope} {events : List SymbolEvent} {name : String} {s : Symbol}

theorem period_define (scope : SymbolScope) (events : List SymbolEvent) (name type : String)
    (kind : SymbolKind) :
    scope.period (events ++ [.define name type kind])
      = scope.period events ++ [.define name type kind] := by
  cases scope with
  | ofClass => rfl
  | ofSubroutine => exact List.rtakeWhile_concat_pos _ _ _ rfl

theorem period_startSubroutine (events : List SymbolEvent) :
    ofSubroutine.period (events ++ [.startSubroutine]) = [] :=
  List.rtakeWhile_concat_neg _ _ _ (by decide)

/-- In a list with one more event at its end, an event is the new one or stands in the old list. -/
theorem concat_eq_append_cons {xs earlier later : List SymbolEvent} {e e' : SymbolEvent} :
    xs ++ [e] = earlier ++ e' :: later ↔
      xs = earlier ∧ e = e' ∧ later = [] ∨
        ∃ later', xs = earlier ++ e' :: later' ∧ later = later' ++ [e] := by
  constructor
  · intro h
    rcases List.eq_nil_or_concat' later with rfl | ⟨later', last, rfl⟩
    · obtain ⟨hxs, he⟩ := List.append_inj' h rfl
      exact .inl ⟨hxs, List.singleton_inj.1 he, rfl⟩
    · rw [← List.cons_append, ← List.append_assoc] at h
      obtain ⟨hxs, he⟩ := List.append_inj' h rfl
      obtain rfl := List.singleton_inj.1 he
      exact .inr ⟨later', hxs, rfl⟩
  · rintro (⟨rfl, rfl, rfl⟩ | ⟨later', rfl, rfl⟩)
    · rfl
    · simp

/-- A definition of the name in the scope is the latest one. -/
theorem latest_define_self {type : String} {kind : SymbolKind} (hk : kind.scope = scope) :
    scope.Latest name (events ++ [.define name type kind]) s ↔
      s = ⟨name, type, kind, (scope.period events).countP (SymbolEvent.defines kind)⟩ := by
  unfold Latest
  rw [period_define]
  constructor
  · rintro ⟨earlier, later, hsplit, hlast, -, hname, hindex⟩
    rcases concat_eq_append_cons.1 hsplit with ⟨rfl, he, rfl⟩ | ⟨later', -, rfl⟩
    · obtain ⟨-, htype, hkind⟩ := SymbolEvent.define.inj he
      rw [htype, hkind, ← hname, ← hindex]
    · -- the definition at the end would be later than the one that is said to be the last
      exact absurd hk (hlast type kind (by simp))
  · rintro rfl
    exact ⟨scope.period events, [], rfl, by simp, hk, rfl, rfl⟩

/-- An event at the end that defines nothing in the scope under the name changes nothing. -/
theorem latest_concat {e : SymbolEvent}
    (hp : scope.period (events ++ [e]) = scope.period events ++ [e])
    (he : ∀ type kind, e = .define name type kind → kind.scope ≠ scope) :
    scope.Latest name (events ++ [e]) s ↔ scope.Latest name events s := by
  unfold Latest
  rw [hp]
  constructor
  · rintro ⟨earlier, later, hsplit, hlast, hscope, hrest⟩
    rcases concat_eq_append_cons.1 hsplit with ⟨-, hnew, -⟩ | ⟨later', hold, rfl⟩
    · exact absurd hscope (he _ _ hnew)
    · have hlast' : ∀ type kind, .define name type kind ∈ later' → kind.scope ≠ scope :=
        fun type kind hmem => hlast type kind (List.mem_append_left _ hmem)
      exact ⟨earlier, later', hold, hlast', hscope, hrest⟩
  · rintro ⟨earlier, later, hsplit, hlast, hrest⟩
    refine ⟨earlier, later ++ [e], by simp [hsplit], fun type kind hmem => ?_, hrest⟩
    rcases List.mem_append.1 hmem with hmem | hmem
    · exact hlast type kind hmem
    · exact he type kind (List.mem_singleton.1 hmem).symm

/-- A name that is defined has a last definition. -/
theorem Defines.exists_latest (h : scope.Defines name events) :
    ∃ s, scope.Latest name events s := by
  induction events using List.reverseRecOn with
  | nil =>
    obtain ⟨type, kind, -, hmem⟩ := h
    cases scope <;> cases hmem
  | append_singleton events e ih =>
    obtain ⟨type, kind, hscope, hmem⟩ := h
    by_cases hp : scope.period (events ++ [e]) = scope.period events ++ [e]
    · rw [hp, List.mem_append, List.mem_singleton] at hmem
      by_cases he : ∀ type kind, e = .define name type kind → kind.scope ≠ scope
      · have hold := hmem.resolve_right fun h => he type kind h.symm hscope
        obtain ⟨s, hs⟩ := ih ⟨type, kind, hscope, hold⟩
        exact ⟨s, (latest_concat hp he).2 hs⟩
      · push Not at he
        obtain ⟨type', kind', rfl, hk⟩ := he
        exact ⟨_, (latest_define_self hk).2 rfl⟩
    · -- only the beginning of a subroutine ends a period
      cases e with
      | define => exact absurd (period_define ..) hp
      | startSubroutine =>
        cases scope with
        | ofClass => exact absurd rfl hp
        | ofSubroutine =>
          rw [period_startSubroutine] at hmem
          cases hmem

theorem Latest.defines (h : scope.Latest name events s) : scope.Defines name events := by
  obtain ⟨earlier, later, hsplit, -, hscope, -⟩ := h
  exact ⟨s.type, s.kind, hscope, by simp [hsplit]⟩

end SymbolScope

/-! ## What a table answers -/

open SymbolScope

namespace SymbolTable

/-- The table after one more event. -/
def after (t : SymbolTable) : SymbolEvent → SymbolTable
  | .startSubroutine => t.startSubroutine
  | .define name type kind => t.define name type kind

/-- The table that a history leads to. -/
def ofHistory (events : List SymbolEvent) : SymbolTable :=
  events.foldl after {}

/-- The variables of a scope, latest first. -/
def symbols (t : SymbolTable) : SymbolScope → List Symbol
  | ofClass => t.classScope
  | ofSubroutine => t.subroutineScope

theorem ofHistory_concat (events : List SymbolEvent) (e : SymbolEvent) :
    ofHistory (events ++ [e]) = (ofHistory events).after e := by
  simp [ofHistory]

theorem symbols_define (t : SymbolTable) (name type : String) (kind : SymbolKind)
    (scope : SymbolScope) :
    (t.define name type kind).symbols scope =
      if kind.scope = scope then ⟨name, type, kind, t.count kind⟩ :: t.symbols scope
      else t.symbols scope := by
  cases kind <;> cases scope <;> rfl

/-- **A table counts the definitions of its periods.** -/
theorem count_ofHistory (events : List SymbolEvent) (kind : SymbolKind) :
    (ofHistory events).count kind
      = (kind.scope.period events).countP (SymbolEvent.defines kind) := by
  induction events using List.reverseRecOn with
  | nil => cases kind <;> rfl
  | append_singleton events e ih =>
    rw [ofHistory_concat]
    cases e with
    | startSubroutine =>
      cases kind with
      | static | field =>
        rw [SymbolKind.scope, period, List.countP_append]
        exact ih
      | argument | «local» =>
        rw [SymbolKind.scope, period_startSubroutine]
        rfl
    | define name type k =>
      rw [period_define, List.countP_append, ← ih, after, count_define]
      by_cases h : k = kind
      · simp [SymbolEvent.defines, h]
      · simp [SymbolEvent.defines, h, Ne.symm h]

/-- **A scope knows a name by its last definition.** -/
theorem find?_symbols_ofHistory (events : List SymbolEvent) (scope : SymbolScope) (name : String)
    (s : Symbol) :
    ((ofHistory events).symbols scope).find? (fun s => s.name == name) = some s ↔
      scope.Latest name events s := by
  induction events using List.reverseRecOn generalizing s with
  | nil => cases scope <;> simp [ofHistory, symbols, Latest, period]
  | append_singleton events e ih =>
    rw [ofHistory_concat]
    cases e with
    | startSubroutine =>
      cases scope with
      | ofClass => rw [latest_concat rfl (by simp)]; exact ih s
      | ofSubroutine =>
        -- nothing is in force any more
        simp [after, symbols, startSubroutine, Latest, period_startSubroutine]
    | define n type k =>
      rw [after, symbols_define]
      by_cases hk : k.scope = scope
      · rw [if_pos hk]
        by_cases hn : n = name
        · subst hn
          rw [List.find?_cons_of_pos (by simp), latest_define_self hk, ← hk, ← count_ofHistory,
            Option.some_inj, eq_comm]
        · rw [List.find?_cons_of_neg (by simpa using hn), latest_concat (period_define ..)]
          · exact ih s
          · rintro type' kind' ⟨⟩
            exact absurd rfl hn
      · rw [if_neg hk, latest_concat (period_define ..)]
        · exact ih s
        · rintro type' kind' ⟨⟩
          exact hk

theorem find?_symbols_eq_none (events : List SymbolEvent) (scope : SymbolScope) (name : String) :
    ((ofHistory events).symbols scope).find? (fun s => s.name == name) = none ↔
      ¬ scope.Defines name events := by
  constructor
  · intro h hdefined
    obtain ⟨s, hs⟩ := hdefined.exists_latest
    rw [(find?_symbols_ofHistory events scope name s).2 hs] at h
    cases h
  · intro h
    refine Option.eq_none_iff_forall_ne_some.2 fun s hs => ?_
    exact h ((find?_symbols_ofHistory events scope name s).1 hs).defines

theorem resolve_ofHistory_eq_some (events : List SymbolEvent) (name : String) (s : Symbol) :
    (ofHistory events).resolve name = some s ↔
      ofSubroutine.Latest name events s ∨
        ¬ ofSubroutine.Defines name events ∧ ofClass.Latest name events s := by
  rw [← find?_symbols_eq_none, ← find?_symbols_ofHistory, ← find?_symbols_ofHistory]
  exact Option.or_eq_some_iff

theorem resolve_ofHistory_eq_none (events : List SymbolEvent) (name : String) :
    (ofHistory events).resolve name = none ↔
      ¬ ofSubroutine.Defines name events ∧ ¬ ofClass.Defines name events := by
  rw [← find?_symbols_eq_none, ← find?_symbols_eq_none]
  exact Option.or_eq_none_iff

/-! ## Cells -/

variable {t : SymbolTable}

/-- Variables of one kind with one number are the same variable. -/
def Distinct (t : SymbolTable) : Prop :=
  ∀ s ∈ t.subroutineScope ++ t.classScope, ∀ s' ∈ t.subroutineScope ++ t.classScope,
    s.kind = s'.kind → s.index = s'.index → s = s'

theorem Distinct.startSubroutine (h : t.Distinct) : t.startSubroutine.Distinct :=
  fun s hs s' hs' => h s (List.mem_append_right _ hs) s' (List.mem_append_right _ hs')

/-- A new variable has a number that no variable of its kind has had. -/
theorem Distinct.define (h : t.Distinct) (hn : t.Numbered) (name type : String)
    (kind : SymbolKind) : (t.define name type kind).Distinct := by
  have hlt : ∀ s ∈ t.subroutineScope ++ t.classScope, s.index < t.count s.kind := by
    intro s hs
    rcases List.mem_append.1 hs with hs | hs
    · exact hn.subroutineScope s hs
    · exact (hn.classScope s hs).2
  have hmem :
      ∀ s ∈ (t.define name type kind).subroutineScope ++ (t.define name type kind).classScope,
      s = ⟨name, type, kind, t.count kind⟩ ∨ s ∈ t.subroutineScope ++ t.classScope := by
    intro s hs
    cases kind <;> simpa [SymbolTable.define, or_left_comm] using hs
  intro s hs s' hs' hkind hindex
  rcases hmem s hs with rfl | hold <;> rcases hmem s' hs' with rfl | hold'
  · rfl
  · have := hlt s' hold'
    simp only at hkind hindex
    rw [← hkind, ← hindex] at this
    omega
  · have := hlt s hold
    simp only at hkind hindex
    rw [hkind, hindex] at this
    omega
  · exact h s hold s' hold' hkind hindex

theorem numbered_ofHistory (events : List SymbolEvent) : (ofHistory events).Numbered := by
  refine List.foldlRecOn events after .empty fun t ht e _ => ?_
  cases e with
  | startSubroutine => exact ht.startSubroutine
  | define name type kind => exact ht.define name type kind

theorem distinct_ofHistory (events : List SymbolEvent) : (ofHistory events).Distinct := by
  induction events using List.reverseRecOn with
  | nil => simp [ofHistory, Distinct]
  | append_singleton events e ih =>
    rw [ofHistory_concat]
    cases e with
    | startSubroutine => exact ih.startSubroutine
    | define name type kind => exact ih.define (numbered_ofHistory events) name type kind

theorem mem_of_resolve {name : String} {s : Symbol} (h : t.resolve name = some s) :
    s.name = name ∧ s ∈ t.subroutineScope ++ t.classScope := by
  rcases Option.or_eq_some_iff.1 h with hs | ⟨-, hs⟩
  · exact ⟨by simpa using List.find?_some hs, List.mem_append_left _ (List.mem_of_find?_eq_some hs)⟩
  · exact ⟨by simpa using List.find?_some hs,
      List.mem_append_right _ (List.mem_of_find?_eq_some hs)⟩

end SymbolTable

theorem SymbolKind.segment_injective : Function.Injective SymbolKind.segment := by
  intro a b h
  cases a <;> cases b <;> first | rfl | cases h

/-- The cell in which a variable lives: its segment, and its number as a word. -/
def Symbol.cell (s : Symbol) : Segment × UInt16 :=
  (s.kind.segment, UInt16.ofNat s.index)

namespace SymbolTable

/-- **Different names stand for different cells**, as long as the numbers are words. -/
theorem cell_ne_of_resolve {events : List SymbolEvent}
    (fits : ∀ kind, events.countP (SymbolEvent.defines kind) < UInt16.size) {name name' : String}
    {s s' : Symbol} (hne : name ≠ name') (h : (ofHistory events).resolve name = some s)
    (h' : (ofHistory events).resolve name' = some s') : s.cell ≠ s'.cell := by
  have hword : ∀ {name : String} {s : Symbol}, (ofHistory events).resolve name = some s →
      s.index < UInt16.size := by
    intro name s h
    have hindex := (numbered_ofHistory events).index_lt h
    have hperiod : ((s.kind.scope).period events).countP (SymbolEvent.defines s.kind)
        ≤ events.countP (SymbolEvent.defines s.kind) := by
      cases s.kind.scope with
      | ofClass => exact Nat.le_refl _
      | ofSubroutine => exact (List.rtakeWhile_suffix _ events).sublist.countP_le
    rw [count_ofHistory] at hindex
    have := fits s.kind
    omega
  intro hcell
  obtain ⟨hsegment, hindex⟩ := Prod.mk.inj hcell
  have hindex : s.index = s'.index := by
    have := congrArg UInt16.toNat hindex
    rwa [UInt16.toNat_ofNat_of_lt' (hword h), UInt16.toNat_ofNat_of_lt' (hword h')] at this
  obtain ⟨hname, hmem⟩ := mem_of_resolve h
  obtain ⟨hname', hmem'⟩ := mem_of_resolve h'
  have hsame := distinct_ofHistory events s hmem s' hmem' (SymbolKind.segment_injective hsegment)
    hindex
  exact hne (by rw [← hname, ← hname', hsame])

/-- **A symbol table is the history of its definitions.** It counts the definitions of a kind in the
period of that kind; a name stands for its last definition in the subroutine, or else for the last
one in the class, or else for no variable; and different names never stand for the same cell. -/
theorem ofHistory_answers {events : List SymbolEvent}
    (fits : ∀ kind, events.countP (SymbolEvent.defines kind) < 65536) :
    (∀ kind, (ofHistory events).count kind
      = (kind.scope.period events).countP (SymbolEvent.defines kind)) ∧
    (∀ name s, (ofHistory events).resolve name = some s ↔
      ofSubroutine.Latest name events s ∨
        ¬ ofSubroutine.Defines name events ∧ ofClass.Latest name events s) ∧
    (∀ name, (ofHistory events).resolve name = none ↔
      ¬ ofSubroutine.Defines name events ∧ ¬ ofClass.Defines name events) ∧
    ∀ name name' s s', name ≠ name' → (ofHistory events).resolve name = some s →
      (ofHistory events).resolve name' = some s' → s.cell ≠ s'.cell := by
  refine ⟨count_ofHistory events, resolve_ofHistory_eq_some events,
    resolve_ofHistory_eq_none events, ?_⟩
  intro name name' s s' hne h h'
  exact cell_ne_of_resolve fits hne h h'

/-- A static variable and a field, an earlier subroutine, and one whose argument is defined again as
a local variable that hides the static variable. -/
def reusedNames : List SymbolEvent :=
  [.define "x" "int" .static, .define "y" "Point" .field, .startSubroutine,
    .define "y" "int" .local, .startSubroutine, .define "this" "Pair" .argument,
    .define "x" "int" .argument, .define "x" "char" .local, .define "z" "int" .local]

/-- Both definitions of the hidden name still count, its second kind numbers it, and the two local
variables have cells of their own. -/
theorem reusedNames_answered :
    (∀ kind, reusedNames.countP (SymbolEvent.defines kind) < 65536) ∧
      (ofHistory reusedNames).count .argument = 2 ∧
      (ofHistory reusedNames).resolve "x" = some ⟨"x", "char", .local, 0⟩ ∧
      (ofHistory reusedNames).resolve "y" = some ⟨"y", "Point", .field, 0⟩ ∧
      (ofHistory reusedNames).resolve "w" = none ∧
      Symbol.cell ⟨"x", "char", .local, 0⟩ ≠ Symbol.cell ⟨"z", "int", .local, 1⟩ := by
  have fits : ∀ kind, reusedNames.countP (SymbolEvent.defines kind) < 65536 := by
    intro kind
    cases kind <;> decide
  obtain ⟨hcount, hsome, hnone, hcells⟩ := ofHistory_answers fits
  have hx : (ofHistory reusedNames).resolve "x" = some ⟨"x", "char", .local, 0⟩ := by decide
  have hz : (ofHistory reusedNames).resolve "z" = some ⟨"z", "int", .local, 1⟩ := by decide
  refine ⟨fits, (hcount .argument).trans (by decide), hx, ?_, ?_, hcells _ _ _ _ (by decide) hx hz⟩
  · decide
  · decide

end SymbolTable

end JackCompiler
