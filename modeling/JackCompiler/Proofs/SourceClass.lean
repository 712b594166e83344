import JackCompiler.Compile
import JackCompiler.Proofs.Lexing.RoundTrip
import JackCompiler.Proofs.Lexing.Tiling
import JackCompiler.Proofs.Reading.Class
/-!
# The class of a source text

A source text fails in its characters or in its tokens, or its tokens spell a class. Each token of a
source keeps to the rules for its kind, and so do the names and constants of the class.
-/

namespace JackCompiler

theorem mapError_eq_error {ε ε' α : Type} {f : ε → ε'} {x : Except ε α} {e : ε'} :
    x.mapError f = .error e ↔ ∃ e', x = .error e' ∧ e = f e' := by
  cases x <;> simp [Except.mapError, eq_comm]

theorem mapError_eq_ok {ε ε' α : Type} {f : ε → ε'} {x : Except ε α} {a : α} :
    x.mapError f = .ok a ↔ x = .ok a := by
  cases x <;> simp [Except.mapError]

/-- A source that spells no class fails in its characters or in its tokens. -/
theorem Class.ofSource_eq_error {source : String} {e : CompileError} :
    Class.ofSource source = .error e ↔
      (∃ e', Token.ofSource source = .error e' ∧ e = .lexical e') ∨
      ∃ tokens e', Token.ofSource source = .ok tokens ∧ Class.ofTokens tokens = .error e' ∧
        e = .syntactic e' := by
  unfold Class.ofSource
  cases Token.ofSource source with
  | error e' =>
    change Except.error (CompileError.lexical e') = .error e ↔ _
    simp [eq_comm]
  | ok tokens =>
    change (Class.ofTokens tokens).mapError CompileError.syntactic = .error e ↔ _
    rw [mapError_eq_error]
    simp

theorem Class.ofSource_eq_ok {source : String} {c : Class} :
    Class.ofSource source = .ok c ↔
      ∃ tokens, Token.ofSource source = .ok tokens ∧ Class.ofTokens tokens = .ok c := by
  unfold Class.ofSource
  cases Token.ofSource source with
  | error e =>
    change Except.error (CompileError.lexical e) = .ok c ↔ _
    simp
  | ok tokens =>
    change (Class.ofTokens tokens).mapError CompileError.syntactic = .ok c ↔ _
    rw [mapError_eq_ok]
    simp

/-- A source whose tokens spell a class is a source of that class. -/
theorem Class.ofSource_of_spelling {source : String} {c : Class}
    (h : (Token.ofSource source).map (List.map Token.kind) = .ok c.spelling) (hc : c.Declares) :
    Class.ofSource source = .ok c := by
  cases hlex : Token.ofSource source with
  | error e =>
    rw [hlex] at h
    cases h
  | ok tokens =>
    rw [hlex] at h
    have hkinds : tokens.map Token.kind = c.spelling := Except.ok.inj h
    refine Class.ofSource_eq_ok.2 ⟨tokens, hlex, Class.ofTokens_eq_ok_iff_takes.2 ?_⟩
    rw [hkinds]
    exact Reader.ClassReader.takes_class hc

/-- The text that spells a class with a blank behind each token. -/
def Class.text (c : Class) : String :=
  String.ofList (c.spelling.flatMap fun k => k.spelling ++ Token.oneBlank.text)

theorem Token.separated_oneBlank (ks : List Kind) : Separated (ks.map (·, oneBlank)) := by
  induction ks with
  | nil => exact trivial
  | cons k ks ih => exact ⟨.inl ⟨.blank ' ', [], rfl, fun _ => ⟨' ', rfl⟩⟩, ih⟩

theorem Token.map_kind_placed (pos : Position) (items : List (Kind × Gap)) :
    (placed pos items).map Token.kind = items.map Prod.fst := by
  induction items generalizing pos with
  | nil => rfl
  | cons item items ih => exact congrArg (item.1 :: ·) (ih _)

/-- **Every class of tokens that a source can spell has a source.** -/
theorem Class.ofSource_text {c : Class} (hc : c.Declares)
    (hkinds : ∀ k ∈ c.spelling, k.WellFormed) : Class.ofSource c.text = .ok c := by
  have hitems : ∀ item ∈ c.spelling.map (·, Token.oneBlank), item.1.WellFormed := by
    simpa using hkinds
  refine Class.ofSource_of_spelling ?_ hc
  have hlex : Token.ofSource c.text
      = .ok (Token.placed ⟨0, 0⟩ (c.spelling.map (·, Token.oneBlank))) := by
    have hresume := Token.resume_items hitems (Token.separated_oneBlank c.spelling) ⟨0, 0⟩ #[]
    rw [List.flatMap_map] at hresume
    rw [Token.ofSource_eq_resume, Class.text, String.toList_ofList]
    exact hresume
  rw [hlex]
  simp [Except.map, Token.map_kind_placed, Function.comp_def]

/-- **A class that a source spells is made of tokens that a source can spell.** -/
theorem Class.wellFormed_of_mem_spelling {source : String} {c : Class}
    (h : Class.ofSource source = .ok c) : ∀ k ∈ c.spelling, k.WellFormed := by
  obtain ⟨tokens, hlex, hread⟩ := Class.ofSource_eq_ok.1 h
  obtain ⟨spans, -, rfl⟩ := Token.exists_tiles_of_ofSource hlex
  rw [(Class.spelling_of_ofTokens hread).2]
  simp only [List.map_map, List.mem_map, Function.comp_apply]
  rintro k ⟨s, -, rfl⟩
  exact s.wellFormed

end JackCompiler
