import JackCompiler.Proofs.Reading.FirstFault
import JackCompiler.Proofs.RunLabels
import JackCompiler.Proofs.SourceClass
/-!
# Errors point at what they complain about

An error with a position names a line of the source and a column on it, and the line goes on from
there with what the error reports (`PointsAt`). Errors of the scan stand where it stopped or where
the string constant or comment began in which it stopped; an error of the grammar stands at a token,
and tokens stand where they are spelled.
-/

namespace JackCompiler

open Token (CutAt Fault)

/-- On the line that the error names, cut at its column, the rest shows what is wrong. -/
def LexicalError.PointsAt (before rest : List Char) : LexicalError → Prop
  | unterminatedString _ => rest.head? = some '"'
  | stringTooLong _ _ => rest.head? = some '"'
  | invalidCharacter _ c => rest.head? = some c
  | invalidInteger _ lexeme => lexeme.toList ≠ [] ∧ lexeme.toList <+: rest
  | integerOverflow _ lexeme => lexeme.toList ≠ [] ∧ lexeme.toList <+: rest
  | unterminatedComment _ => ['/', '*'] <+: rest
  | malformedComment _ => (∀ c ∈ before, Text.isBlank c) ∧
      ∀ c, rest.head? = some c → Text.isBlank c = false ∧ c ≠ '*'

/-- The same for all errors of a source. Only those of the scan and of unexpected tokens stand at a
place of it. -/
def CompileError.PointsAt (before rest : List Char) : CompileError → Prop
  | lexical e => e.PointsAt before rest
  | syntactic (.unexpectedToken t) => ∃ w, w ≠ [] ∧ t.kind.Spells w ∧ w <+: rest
  | _ => False

namespace Token

variable {a b : List Char} {e : LexicalError}

/-- A fault at the beginning of a text that is shown by characters of one line. -/
theorem exists_pointsAt_of_append {w : List Char} (hpos : e.pos = Position.after ⟨0, 0⟩ a)
    (hne : w ≠ []) (hw : '\n' ∉ w) (hr : w.getLast? ≠ some '\r')
    (hshows : ∀ before rest, e.PointsAt before (w ++ rest)) :
    ∃ before rest, CutAt (a ++ (w ++ b)) e.pos before rest ∧ e.PointsAt before rest := by
  obtain ⟨before, rest, hcut⟩ := exists_cutAt_append (a := a) (b := b) hne hw hr
  exact ⟨before, w ++ rest, hpos ▸ hcut, hshows before rest⟩

/-- **An error of the scan points at its fault.** -/
theorem Fault.exists_pointsAt (h : Fault (Position.after ⟨0, 0⟩ a) b e) :
    ∃ before rest, CutAt (a ++ b) e.pos before rest ∧ e.PointsAt before rest := by
  generalize hpos : Position.after ⟨0, 0⟩ a = pos at h
  cases h with
  | unterminatedString =>
    exact exists_pointsAt_of_append (w := ['"']) hpos.symm (by simp) (by decide) (by decide)
      fun _ _ => rfl
  | stringTooLong =>
    exact exists_pointsAt_of_append (w := ['"']) hpos.symm (by simp) (by decide) (by decide)
      fun _ _ => rfl
  | unterminatedComment =>
    exact exists_pointsAt_of_append (w := ['/', '*']) hpos.symm (by simp) (by decide) (by decide)
      fun _ _ => List.prefix_append _ _
  | @invalidInteger w cs hne hw =>
    obtain ⟨hn, hr⟩ := oneLine_of_forall_not_isBlank fun c hc => not_isBlank_of_isWordChar (hw c hc)
    refine exists_pointsAt_of_append hpos.symm hne hn hr fun _ rest => ?_
    simpa [LexicalError.PointsAt] using hne
  | @integerOverflow w cs hne hw =>
    obtain ⟨hn, hr⟩ := oneLine_of_forall_not_isBlank fun c hc => not_isBlank_of_isWordChar (hw c hc)
    refine exists_pointsAt_of_append hpos.symm hne hn hr fun _ rest => ?_
    simpa [LexicalError.PointsAt] using hne
  | @invalidCharacter a₁ cs c hlt =>
    -- the characters that end a line have small codes
    have hline : c ≠ '\n' ∧ c ≠ '\r' := by
      constructor <;> (rintro rfl; exact absurd hlt (by decide))
    have hplace : pos.after a₁ = Position.after ⟨0, 0⟩ (a ++ a₁) := by
      rw [after_append, hpos]
    have hcut := exists_pointsAt_of_append (a := a ++ a₁) (b := cs) (w := [c])
      (e := .invalidCharacter (pos.after a₁) c) hplace (by simp) (by simpa using hline.1.symm)
      (by simpa using hline.2) fun _ _ => rfl
    simpa using hcut
  | @malformedComment a₁ cs hcs hstar =>
    have hline := getElem?_lines_newline (a := a ++ a₁) hcs
    rw [List.append_assoc, List.append_assoc, after_append, hpos] at hline
    refine ⟨(lineRest cs).takeWhile Text.isBlank, (lineRest cs).dropWhile Text.isBlank,
      ⟨?_, rfl⟩, ?_, ?_⟩
    · rw [List.takeWhile_append_dropWhile]
      exact hline
    · exact fun c hc => List.all_eq_true.1 List.all_takeWhile c hc
    · intro c hc
      refine ⟨?_, ?_⟩
      · have := List.head?_dropWhile_not Text.isBlank (lineRest cs)
        rw [hc] at this
        simpa using this
      · rintro rfl
        exact hstar hc

end Token

/-- A token that is reported is one of the list. -/
theorem Class.mem_of_ofTokens_eq_error {tokens : List Token} {t : Token}
    (h : Class.ofTokens tokens = .error (.unexpectedToken t)) : t ∈ tokens := by
  rcases Class.ofTokens_eq_error.1 h with h | ⟨r, -, h⟩
  · obtain ⟨i, t', r, ht, -, -, heq⟩ := Reader.ClassReader.foldlM_next_eq_error.1 h
    cases heq
    exact List.mem_of_getElem? ht
  · cases (Reader.ClassReader.finish_eq_error.1 h).1

/-- An error with a position is a fault of the scan or stands at a token of the source. -/
theorem fault_or_token_of_compile {source : String} {labels labels' : Labels} {e : CompileError}
    {p : Position} (h : compile source labels = .error e labels') (hp : e.pos? = some p) :
    (∃ e' a b, e = .lexical e' ∧ e'.pos = p ∧ source.toList = a ++ b ∧
        Fault (Position.after ⟨0, 0⟩ a) b e') ∨
      ∃ (s : Token.Span) (before rest : List Char), e = .syntactic (.unexpectedToken s.token) ∧
        CutAt source.toList p before (s.text ++ rest) := by
  rcases compile_eq_error.1 h with ⟨h, -⟩ | ⟨c, e', -, -, rfl⟩
  · rcases Class.ofSource_eq_error.1 h with ⟨e', hlex, rfl⟩ | ⟨tokens, e', hlex, hread, rfl⟩
    · obtain ⟨a, b, hsplit, hfault⟩ := Token.exists_fault_of_ofSource hlex
      exact .inl ⟨e', a, b, rfl, Option.some.inj hp, hsplit, hfault⟩
    · cases e' with
      | unexpectedEnd => cases hp
      | unexpectedToken t =>
        obtain rfl : t.pos = p := Option.some.inj hp
        obtain ⟨spans, htiles, rfl⟩ := Token.exists_tiles_of_ofSource hlex
        obtain ⟨s, hs, rfl⟩ := List.mem_map.1 (Class.mem_of_ofTokens_eq_error hread)
        obtain ⟨before, rest, hcut⟩ := htiles.exists_cutAt_span s hs
        exact .inr ⟨s, before, rest, rfl, hcut⟩
  · cases hp

/-- **Every error with a position points at the text that it complains about.** The line that the
position names exists, the column is the place before one of its characters or its end, and from
there on the line shows what the error reports. -/
theorem compile_error_pointsAt {source : String} {labels labels' : Labels} {e : CompileError}
    {p : Position} (h : compile source labels = .error e labels') (hp : e.pos? = some p) :
    ∃ before rest, CutAt source.toList p before rest ∧ e.PointsAt before rest := by
  rcases fault_or_token_of_compile h hp with
    ⟨e', a, b, rfl, rfl, hsplit, hfault⟩ | ⟨s, before, rest, rfl, hcut⟩
  · rw [hsplit]
    exact hfault.exists_pointsAt
  · exact ⟨before, s.text ++ rest, hcut, s.text, s.ne_nil, s.spells, List.prefix_append _ _⟩

/-- A statement where a subroutine should begin, behind an ideographic space on the second line. -/
def strayStatement : String :=
  "class É \x7b\r\n\u3000let \x7d"

theorem strayStatement_pointsAt :
    compile strayStatement ⟨4⟩
        = .error (.syntactic (.unexpectedToken ⟨.keyword .let, ⟨1, 3⟩⟩)) ⟨4⟩ ∧
      ∃ before rest, CutAt strayStatement.toList ⟨1, 3⟩ before rest ∧
        ∃ w, w ≠ [] ∧ (Token.Kind.keyword .let).Spells w ∧ w <+: rest := by
  have hlex : Token.ofSource strayStatement = .ok
      [⟨.keyword .class, ⟨0, 0⟩⟩, ⟨.name "É", ⟨0, 6⟩⟩, ⟨.symbol '{', ⟨0, 9⟩⟩,
        ⟨.keyword .let, ⟨1, 3⟩⟩, ⟨.symbol '}', ⟨1, 7⟩⟩] := by
    decide +kernel
  have h : compile strayStatement ⟨4⟩
      = .error (.syntactic (.unexpectedToken ⟨.keyword .let, ⟨1, 3⟩⟩)) ⟨4⟩ := by
    unfold compile Class.ofSource
    rw [hlex]
    rfl
  exact ⟨h, compile_error_pointsAt h rfl⟩

end JackCompiler
