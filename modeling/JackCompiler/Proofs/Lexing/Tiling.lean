import JackCompiler.Proofs.Lexing.Steps
import Mathlib.Data.List.Basic
/-!
# Tokens tile their source

A text that is scanned without an error falls into tokens, blanks and comments, and nothing is left
over (`Tiles`). Each token stands where its position says, in its spelling; no two of them overlap,
and they come in the order of their positions. A text that is not is cut by its error: what stands
behind the cut shows the fault.
-/

namespace JackCompiler

namespace Token

/-- A token with the characters that spell it. -/
structure Span where
  token : Token
  text : List Char
  wellFormed : token.kind.WellFormed
  spells : token.kind.Spells text

/-- The position behind the last character of a token. -/
def Span.stop (s : Span) : Position :=
  ⟨s.token.pos.row, s.token.pos.col + columns s.text⟩

/-- The text behind a position is a sequence of tokens, blanks and comments; `spans` are the tokens
of it. A token takes all the characters that could belong to it. -/
inductive Tiles : Position → List Char → List Span → Prop
  | nil (pos : Position) : Tiles pos [] []
  /-- A comment that ends with the text. -/
  | lastComment {pos : Position} {text : List Char} :
      '\n' ∉ text → Tiles pos ('/' :: '/' :: text) []
  | spacer {pos : Position} {s : Spacer} {cs : List Char} {spans : List Span} :
      s.WellFormed → Tiles (pos.after s.text) cs spans → Tiles pos (s.text ++ cs) spans
  | token {pos : Position} {k : Kind} {w cs : List Char} {spans : List Span}
      (hk : k.WellFormed) (hw : k.Spells w) :
      k.Stops cs → Tiles (pos.after w) cs spans →
      Tiles pos (w ++ cs) (⟨⟨k, pos⟩, w, hk, hw⟩ :: spans)

theorem Span.ne_nil (s : Span) : s.text ≠ [] :=
  (s.spells.oneLine s.wellFormed).1

/-- A token ends on its line. -/
theorem Span.after_eq_stop (s : Span) : s.token.pos.after s.text = s.stop :=
  after_of_notMem (s.spells.oneLine s.wellFormed).2.1 _

theorem columns_pos {w : List Char} (h : w ≠ []) : 0 < columns w := by
  obtain ⟨c, w, rfl⟩ := List.exists_cons_of_ne_nil h
  have := c.utf8Size_pos
  rw [columns_cons]
  omega

/-! ## The scan of a whole text -/

theorem Spacer.text_ne_nil (s : Spacer) : s.text ≠ [] := by
  cases s <;> simp [Spacer.text]

/-- **A text is tiled, or cut at a fault.** -/
theorem tiles_or_fault {pos : Position} {tokens : Array Token} {cs : List Char}
    {result : Except LexicalError (List Token)} (h : resume pos none tokens cs = result) :
    (∃ spans, Tiles pos cs spans ∧ result = .ok (tokens.toList ++ spans.map Span.token)) ∨
      ∃ a b e, cs = a ++ b ∧ Fault (pos.after a) b e ∧ result = .error e := by
  induction hlength : cs.length using Nat.strongRecOn generalizing pos tokens cs with
  | ind n ih =>
  have hfinds := resume_finds pos tokens cs
  rw [h] at hfinds
  cases hfinds with
  | nothing hresult =>
    exact .inl ⟨[], .nil pos, by simpa using hresult⟩
  | lastComment ht hresult =>
    exact .inl ⟨[], .lastComment ht, by simpa using hresult⟩
  | @spacer s cs hs hscan =>
    have hshorter : cs.length < n := by
      have := List.length_pos_iff.2 s.text_ne_nil
      rw [List.length_append] at hlength
      omega
    rcases ih cs.length hshorter hscan rfl with
      ⟨spans, htiles, hresult⟩ | ⟨a, b, e, rfl, hfault, hresult⟩
    · exact .inl ⟨spans, .spacer hs htiles, hresult⟩
    · refine .inr ⟨s.text ++ a, b, e, by simp, ?_, hresult⟩
      rwa [after_append]
  | @token k w cs hk hw hstops hscan =>
    have hshorter : cs.length < n := by
      have := List.length_pos_iff.2 (hw.oneLine hk).1
      rw [List.length_append] at hlength
      omega
    rcases ih cs.length hshorter hscan rfl with
      ⟨spans, htiles, hresult⟩ | ⟨a, b, e, rfl, hfault, hresult⟩
    · exact .inl ⟨_, .token hk hw hstops htiles, by simpa using hresult⟩
    · refine .inr ⟨w ++ a, b, e, by simp, ?_, hresult⟩
      rwa [after_append]
  | fault hfault hresult => exact .inr ⟨[], cs, _, rfl, hfault, hresult⟩

theorem exists_tiles_of_ofSource {source : String} {tokens : List Token}
    (h : ofSource source = .ok tokens) :
    ∃ spans, Tiles ⟨0, 0⟩ source.toList spans ∧ tokens = spans.map Span.token := by
  rcases tiles_or_fault (ofSource_eq_resume source).symm with
    ⟨spans, htiles, hresult⟩ | ⟨a, b, e, -, -, hresult⟩
  · exact ⟨spans, htiles, by simpa [h] using hresult⟩
  · rw [h] at hresult
    cases hresult

theorem exists_fault_of_ofSource {source : String} {e : LexicalError}
    (h : ofSource source = .error e) :
    ∃ a b, source.toList = a ++ b ∧ Fault (Position.after ⟨0, 0⟩ a) b e := by
  rcases tiles_or_fault (ofSource_eq_resume source).symm with
    ⟨spans, -, hresult⟩ | ⟨a, b, e', hsplit, hfault, hresult⟩
  · rw [h] at hresult
    cases hresult
  · rw [h] at hresult
    cases hresult
    exact ⟨a, b, hsplit, hfault⟩

/-! ## Where the tokens stand -/

namespace Tiles

variable {pos : Position} {cs : List Char} {spans : List Span}

theorem pos_le (h : Tiles pos cs spans) : ∀ s ∈ spans, pos ≤ s.token.pos := by
  induction h with
  | nil => simp
  | lastComment => simp
  | @spacer pos s cs spans _ _ ih =>
    exact fun s' hs' => Position.le_trans (pos.le_after s.text) (ih s' hs')
  | @token pos k w cs spans _ _ _ _ ih =>
    refine List.forall_mem_cons.2 ⟨pos.le_refl, fun s' hs' => ?_⟩
    exact Position.le_trans (pos.le_after w) (ih s' hs')

/-- **Tokens do not overlap.** -/
theorem pairwise_stop_le (h : Tiles pos cs spans) :
    spans.Pairwise fun s t => s.stop ≤ t.token.pos := by
  induction h with
  | nil => exact .nil
  | lastComment => exact .nil
  | spacer _ _ ih => exact ih
  | @token pos k w cs spans hk hw _ hrest ih =>
    refine .cons (fun t ht => ?_) ih
    rw [← Span.after_eq_stop]
    exact hrest.pos_le t ht

/-- Every token stands in the text at its position. -/
theorem exists_append (h : Tiles pos cs spans) :
    ∀ s ∈ spans, ∃ a b, cs = a ++ (s.text ++ b) ∧ s.token.pos = pos.after a := by
  induction h with
  | nil => simp
  | lastComment => simp
  | @spacer pos s cs spans _ _ ih =>
    intro s' hs'
    obtain ⟨a, b, rfl, hpos⟩ := ih s' hs'
    exact ⟨s.text ++ a, b, by simp, by rw [hpos, after_append]⟩
  | @token pos k w cs spans _ _ _ _ ih =>
    refine List.forall_mem_cons.2 ⟨⟨[], cs, rfl, rfl⟩, fun s' hs' => ?_⟩
    obtain ⟨a, b, rfl, hpos⟩ := ih s' hs'
    exact ⟨w ++ a, b, by simp, by rw [hpos, after_append]⟩

/-- **Every token stands on the line that its position names**, at its column. -/
theorem exists_cutAt_span (h : Tiles ⟨0, 0⟩ cs spans) :
    ∀ s ∈ spans, ∃ before rest, CutAt cs s.token.pos before (s.text ++ rest) := by
  intro s hs
  obtain ⟨a, b, rfl, hpos⟩ := h.exists_append s hs
  obtain ⟨hne, hn, hr⟩ := s.spells.oneLine s.wellFormed
  rw [hpos]
  exact exists_cutAt_append hne hn hr

end Tiles

/-- **The tokens of a source tile it.** The text falls into the spellings of its tokens, blanks and
comments. The tokens come in the order of their positions, and each ends before the next begins.
Each keeps to the rules for its kind and is spelled, by at least one character, on the line that its
position names and from the byte of it that its position names. -/
theorem ofSource_tiles {source : String} {tokens : List Token} (h : ofSource source = .ok tokens) :
    ∃ spans : List Span, tokens = spans.map Span.token ∧ Tiles ⟨0, 0⟩ source.toList spans ∧
      (spans.Pairwise fun s t => s.stop ≤ t.token.pos) ∧
      (tokens.Pairwise fun t t' => t.pos < t'.pos) ∧
      ∀ s ∈ spans, s.token.kind.WellFormed ∧ s.token.kind.Spells s.text ∧ s.text ≠ [] ∧
        ∃ before rest, CutAt source.toList s.token.pos before (s.text ++ rest) := by
  obtain ⟨spans, htiles, rfl⟩ := exists_tiles_of_ofSource h
  refine ⟨spans, rfl, htiles, htiles.pairwise_stop_le, ?_, fun s hs => ?_⟩
  · refine List.pairwise_map.2 (htiles.pairwise_stop_le.imp fun {s t} hst => ?_)
    have hwidth := columns_pos s.ne_nil
    rw [Position.le_def] at hst
    rw [Position.lt_def]
    simp only [Span.stop] at hst
    omega
  · exact ⟨s.wellFormed, s.spells, s.ne_nil, htiles.exists_cutAt_span s hs⟩

/-- Tokens with nothing between them, a number with leading zeros, a backslash that escapes nothing,
and a comment over two lines. -/
def crowdedText : String :=
  "let é=\"\\n\\\"\"/* \"\r\n\t* */+007;// end"

/-- The tokens of that text. -/
def crowdedTokens : List Token :=
  [⟨.keyword .let, ⟨0, 0⟩⟩, ⟨.name "é", ⟨0, 4⟩⟩, ⟨.symbol '=', ⟨0, 6⟩⟩, ⟨.string "\\n\"", ⟨0, 7⟩⟩,
    ⟨.symbol '+', ⟨1, 5⟩⟩, ⟨.integer 7, ⟨1, 6⟩⟩, ⟨.symbol ';', ⟨1, 9⟩⟩]

theorem crowdedText_tiled :
    ofSource crowdedText = .ok crowdedTokens ∧
      ∃ spans : List Span, crowdedTokens = spans.map Span.token ∧
        Tiles ⟨0, 0⟩ crowdedText.toList spans := by
  have h : ofSource crowdedText = .ok crowdedTokens := by decide +kernel
  obtain ⟨spans, htokens, htiles, -⟩ := ofSource_tiles h
  exact ⟨h, spans, htokens, htiles⟩

end Token

end JackCompiler
