import JackCompiler.Proofs.Lexing.Resume
import JackCompiler.Text.Numeral
/-!
# Scanning undoes spelling

A text that spells tokens, with any gaps between them, is scanned into these tokens, each at its
place. The proof goes through the text from front to back: a gap is skipped (`resume_gap`), a token
is added (`resume_token`), and the scan goes on with the text from the position behind it.
-/

namespace JackCompiler

namespace Token

variable {pos p : Position} {tokens : Array Token} {cs : List Char} {c : Char}

/-! ## Positions -/

theorem columns_cons (c : Char) (cs : List Char) : columns (c :: cs) = c.utf8Size + columns cs := by
  have hfoldl : ∀ n, cs.foldl (fun n c => n + c.utf8Size) n = n + columns cs := by
    unfold columns
    induction cs with
    | nil => simp
    | cons d cs ih =>
      intro n
      rw [List.foldl_cons, List.foldl_cons, ih, ih (0 + d.utf8Size)]
      omega
  rw [columns, List.foldl_cons, hfoldl]
  omega

theorem columns_append (a b : List Char) : columns (a ++ b) = columns a + columns b := by
  induction a with
  | nil => simp [columns]
  | cons c a ih => rw [List.cons_append, columns_cons, columns_cons, ih, Nat.add_assoc]

/-- On one line only the column moves. -/
theorem after_of_notMem {w : List Char} (hw : '\n' ∉ w) (pos : Position) :
    pos.after w = ⟨pos.row, pos.col + columns w⟩ := by
  induction w generalizing pos with
  | nil => rfl
  | cons c w ih =>
    obtain ⟨hc, hw⟩ := List.ne_and_not_mem_of_not_mem_cons hw
    have hnext : pos.next c = ⟨pos.row, pos.col + c.utf8Size⟩ := if_neg (Ne.symm hc)
    rw [Position.after, List.foldl_cons, ← Position.after, ih hw, hnext, columns_cons,
      Nat.add_assoc]

theorem after_append (pos : Position) (a b : List Char) :
    pos.after (a ++ b) = (pos.after a).after b :=
  List.foldl_append

/-! ## Gaps -/

theorem splitOn_newline (cs : List Char) : ('\n' :: cs).splitOn '\n' = [] :: cs.splitOn '\n' :=
  List.splitOnP_cons_eq_if_modifyHead _ _

theorem splitOn_cons (hc : c ≠ '\n') :
    (c :: cs).splitOn '\n' = (cs.splitOn '\n').modifyHead (c :: ·) := by
  unfold List.splitOn
  rw [List.splitOnP_cons_eq_if_modifyHead, if_neg (by simpa using hc)]

theorem not_beginsWithStar_nil : ¬ Spacer.BeginsWithStar [] := by
  unfold Spacer.BeginsWithStar
  simp

/-- A line that begins with `*` still does so if more is written behind it. -/
theorem beginsWithStar_lineRest {line : List Char} {lines : List (List Char)} {text : List Char}
    (hsplit : text.splitOn '\n' = line :: lines) (hstar : Spacer.BeginsWithStar line) :
    Spacer.BeginsWithStar (lineRest (text ++ cs)) := by
  induction text generalizing line lines with
  | nil =>
    cases hsplit
    exact absurd hstar not_beginsWithStar_nil
  | cons c text ih =>
    by_cases hc : c = '\n'
    · rw [hc, splitOn_newline] at hsplit
      cases hsplit
      exact absurd hstar not_beginsWithStar_nil
    · obtain ⟨first, others, htext⟩ := List.exists_cons_of_ne_nil (List.splitOn_ne_nil '\n' text)
      rw [splitOn_cons hc, htext] at hsplit
      cases hsplit
      by_cases hb : Text.isBlank c
      · have hfirst : Spacer.BeginsWithStar first := by
          simpa [Spacer.BeginsWithStar, hb] using hstar
        -- something must follow the blank on its line, so the line does not end behind it
        have hhead : (text ++ cs).head? ≠ some '\n' := by
          intro hh
          have hnil : first = [] := by
            cases text with
            | nil => exact (List.cons.inj htext).1.symm
            | cons d text =>
              cases hh
              rw [splitOn_newline] at htext
              exact (List.cons.inj htext).1.symm
          exact not_beginsWithStar_nil (hnil ▸ hfirst)
        have hrest := ih htext hfirst
        rw [List.cons_append, lineRest_cons hc fun _ => hhead]
        simpa [Spacer.BeginsWithStar, hb] using hrest
      · obtain rfl : c = '*' := by
          simpa [Spacer.BeginsWithStar, hb] using hstar
        rw [List.cons_append, lineRest_cons hc fun h => absurd h (by decide)]
        rfl

/-- A block comment is left behind its end. -/
theorem resume_blockComment {text : List Char} (hend : ¬ ['*', '/'] <:+: text)
    (hlines : ∀ line ∈ ((text ++ ['*', '/']).splitOn '\n').tail, Spacer.BeginsWithStar line) :
    resume pos (some p) tokens (text ++ '*' :: '/' :: cs)
      = resume (pos.after (text ++ ['*', '/'])) none tokens cs := by
  induction text generalizing pos with
  | nil => exact resume_closeComment
  | cons c text ih =>
    have hend' : ¬ ['*', '/'] <:+: text := fun hi => hend (List.infix_cons hi)
    by_cases hc : c = '\n'
    · -- the comment goes on, since its next line begins with `*`
      subst hc
      rw [List.cons_append, splitOn_newline, List.tail_cons] at hlines
      obtain ⟨first, others, hsplit⟩ :=
        List.exists_cons_of_ne_nil (List.splitOn_ne_nil '\n' (text ++ ['*', '/']))
      have hstar : Spacer.BeginsWithStar (lineRest ((text ++ ['*', '/']) ++ cs)) :=
        beginsWithStar_lineRest hsplit (hlines first (by simp [hsplit]))
      rw [List.append_assoc] at hstar
      exact (resume_newline (.inr hstar)).trans
        (ih hend' fun line hl => hlines line (List.mem_of_mem_tail hl))
    · rw [List.cons_append, splitOn_cons hc] at hlines
      rw [List.cons_append, resume_inComment hc]
      · exact ih hend' (by simpa using hlines)
      · rintro rfl hhead
        cases text with
        | nil => cases hhead
        | cons d text =>
          cases hhead
          exact hend ⟨[], text, rfl⟩

theorem after_lineComment {text : List Char} (ht : '\n' ∉ text) :
    pos.after (Spacer.lineComment text).text = ⟨pos.row + 1, 0⟩ := by
  have hw : '\n' ∉ '/' :: '/' :: text := by simpa using ht
  rw [Spacer.text, ← List.cons_append, ← List.cons_append, after_append, after_of_notMem hw]
  rfl

/-- A part of a gap is skipped. -/
theorem resume_spacer {s : Spacer} (hs : s.WellFormed) :
    resume pos none tokens (s.text ++ cs) = resume (pos.after s.text) none tokens cs := by
  cases s with
  | blank c =>
    by_cases hc : c = '\n'
    · subst hc
      exact resume_newline (.inl rfl)
    · exact resume_blank hs hc
  | lineComment text =>
    have htext : '\n' ∉ text := hs
    rw [after_lineComment htext, Spacer.text, List.cons_append, List.cons_append,
      List.append_assoc]
    exact resume_lineComment htext
  | blockComment text =>
    obtain ⟨hend, hlines⟩ := hs
    rw [Spacer.text, List.cons_append, List.cons_append, List.append_assoc, resume_openComment]
    exact resume_blockComment hend hlines

/-- **A gap is skipped.** -/
theorem resume_gap (g : Gap) :
    resume pos none tokens (g.text ++ cs) = resume (pos.after g.text) none tokens cs := by
  obtain ⟨spacers, hwf⟩ := g
  unfold Gap.text
  dsimp only
  induction spacers generalizing pos with
  | nil => rfl
  | cons s spacers ih =>
    obtain ⟨hs, hwf⟩ := List.forall_mem_cons.1 hwf
    rw [List.flatMap_cons, List.append_assoc, resume_spacer hs, ih hwf, after_append]

/-! ## Tokens -/

/-- The characters of a word are not blank. -/
theorem not_isBlank_of_isWordChar (hc : isWordChar c) : Text.isBlank c = false := by
  simp only [isWordChar, Bool.not_eq_true', Bool.or_eq_false_iff] at hc
  exact hc.1.1

/-- Characters of which none is blank stand on one line. -/
theorem oneLine_of_forall_not_isBlank {w : List Char} (hw : ∀ c ∈ w, Text.isBlank c = false) :
    '\n' ∉ w ∧ w.getLast? ≠ some '\r' := by
  constructor
  · intro hn
    cases hw _ hn
  · intro hr
    cases hw _ (List.mem_of_getLast? hr)

/-- A pass that reads a token from characters of one line adds the token. -/
theorem resume_token_of_pass {w : List Char} {kind : Kind} (hw : '\n' ∉ w)
    (hr : w.getLast? ≠ some '\r')
    (hpass : Scanner.pass pos.row
        { rest := w ++ lineRest cs, col := pos.col, comment := none, tokens }
      = .more { rest := lineRest cs, col := pos.col + columns w, comment := none,
                tokens := tokens.push ⟨kind, pos⟩ }) :
    resume pos none tokens (w ++ cs)
      = resume (pos.after w) none (tokens.push ⟨kind, pos⟩) cs := by
  rw [resume_of_pass hw hr hpass, ← after_of_notMem hw]

theorem symbol_facts (hc : isSymbol c) :
    Text.isBlank c = false ∧ c ≠ '"' ∧ c.utf8Size = 1 ∧ c.isDigit = false := by
  have hall : symbols.all (fun c =>
      Text.isBlank c = false ∧ c ≠ '"' ∧ c.utf8Size = 1 ∧ c.isDigit = false) := by decide
  exact of_decide_eq_true (List.all_eq_true.1 hall c (List.contains_iff_mem.1 hc))

/-- A symbol is read where it does not begin a comment. -/
theorem Scanner.pass_symbol {row col : Nat} {rest : List Char} {line : Array Token}
    (hc : isSymbol c) (hslash : c = '/' → rest.head? ≠ some '/' ∧ rest.head? ≠ some '*') :
    Scanner.pass row { rest := [c] ++ rest, col, comment := none, tokens := line }
      = .more { rest, col := col + columns [c], comment := none,
                tokens := line.push ⟨.symbol c, ⟨row, col⟩⟩ } := by
  obtain ⟨hblank, hquote, hsize, -⟩ := symbol_facts hc
  rw [List.singleton_append, Scanner.pass_cons hquote hslash, if_neg (by simp [hblank]), if_pos hc]
  simp [columns, hsize]

/-- A word is read up to the first character that is not one of a word. -/
theorem Scanner.pass_word {row col : Nat} {w rest : List Char} {line : Array Token} (hne : w ≠ [])
    (hw : ∀ c ∈ w, isWordChar c) (hstop : ∀ c, rest.head? = some c → isWordChar c = false) :
    Scanner.pass row { rest := w ++ rest, col, comment := none, tokens := line }
      = match ofWord ⟨row, col⟩ w with
        | .ok kind => .more { rest, col := col + columns w, comment := none,
                              tokens := line.push ⟨kind, ⟨row, col⟩⟩ }
        | .error e => .failed { rest := w ++ rest, col, comment := none, tokens := line } e := by
  have hstop : rest.takeWhile isWordChar = [] ∧ rest.dropWhile isWordChar = rest := by
    cases rest with
    | nil => exact ⟨rfl, rfl⟩
    | cons d rest => simp [hstop d rfl]
  have htake : (w ++ rest).takeWhile isWordChar = w := by
    rw [List.takeWhile_append_of_pos hw, hstop.1, List.append_nil]
  have hdrop : (w ++ rest).dropWhile isWordChar = rest := by
    rw [List.dropWhile_append_of_pos hw, hstop.2]
  obtain ⟨c, w, rfl⟩ := List.exists_cons_of_ne_nil hne
  have hc := hw c (by simp)
  simp only [isWordChar, Bool.not_eq_true', Bool.or_eq_false_iff, beq_eq_false_iff_ne] at hc
  obtain ⟨⟨hb, hq⟩, hs⟩ := hc
  rw [List.cons_append] at htake hdrop ⊢
  have hslash : c ≠ '/' := by
    rintro rfl
    cases hs
  have hpass := @Scanner.pass_cons row c (w ++ rest) col line hq fun h => absurd h hslash
  rw [if_neg (by simp [hb]), if_neg (by simp [hs]), htake, hdrop] at hpass
  exact hpass

/-- **A symbol is read** where it does not begin a comment. -/
theorem resume_symbol (hc : isSymbol c)
    (hslash : c = '/' → cs.head? ≠ some '/' ∧ cs.head? ≠ some '*') :
    resume pos none tokens ([c] ++ cs)
      = resume (pos.after [c]) none (tokens.push ⟨.symbol c, pos⟩) cs := by
  have hblank : ∀ d ∈ [c], Text.isBlank d = false := by
    simpa using (symbol_facts hc).1
  obtain ⟨hn, hr⟩ := oneLine_of_forall_not_isBlank hblank
  refine resume_token_of_pass hn hr ?_
  refine Scanner.pass_symbol hc fun hc => ?_
  exact ⟨fun hd => (hslash hc).1 (head?_of_lineRest hd),
    fun hd => (hslash hc).2 (head?_of_lineRest hd)⟩

/-- **A word is read** up to the first character that is not one of a word. -/
theorem resume_word {w : List Char} {kind : Kind} (hne : w ≠ []) (hw : ∀ c ∈ w, isWordChar c)
    (hstop : ∀ c, cs.head? = some c → isWordChar c = false) (hkind : ofWord pos w = .ok kind) :
    resume pos none tokens (w ++ cs)
      = resume (pos.after w) none (tokens.push ⟨kind, pos⟩) cs := by
  obtain ⟨hn, hr⟩ :=
    oneLine_of_forall_not_isBlank fun c hc => not_isBlank_of_isWordChar (hw c hc)
  refine resume_token_of_pass hn hr ?_
  rw [Scanner.pass_word hne hw fun c hc => hstop c (head?_of_lineRest hc), hkind]

/-- A character of a string constant is read from its spelling. -/
theorem readString_quoted {start : Position} {col : Nat} {read rest : List Char}
    (hc : c.toNat ≤ limit) :
    readString start col read (quoted c ++ rest)
      = readString start (col + columns (quoted c)) (c :: read) rest := by
  by_cases hquote : c = '"'
  · subst hquote
    rfl
  by_cases hslash : c = '\\'
  · subst hslash
    rfl
  have hplain : quoted c = [c] := if_neg (by simp [hquote, hslash])
  rw [hplain, List.singleton_append, readString, if_neg (Nat.not_lt.2 hc), columns_cons]
  · rfl
  · exact hquote
  · simp [hslash]
  · simp [hslash]

/-- A string constant is read up to its closing quote. -/
theorem readString_flatMap_quoted {start : Position} {col : Nat} {read text rest : List Char}
    (hcode : ∀ c ∈ text, c.toNat ≤ limit) (hlen : read.length + text.length ≤ limit) :
    readString start col read (text.flatMap quoted ++ '"' :: rest)
      = .ok (read.reverse ++ text, rest, col + columns (text.flatMap quoted) + 1) := by
  induction text generalizing col read with
  | nil =>
    have hle : ¬ limit < read.length := by
      rw [List.length_nil] at hlen
      omega
    rw [List.flatMap_nil, List.nil_append, readString, if_neg hle]
    simp [columns]
  | cons c text ih =>
    obtain ⟨hc, htext⟩ := List.forall_mem_cons.1 hcode
    have hlen' : (c :: read).length + text.length ≤ limit := by
      simp only [List.length_cons] at hlen ⊢
      omega
    rw [List.flatMap_cons, List.append_assoc, readString_quoted hc, ih htext hlen', columns_append]
    simp [Nat.add_assoc]

/-- **A string constant is read from its spelling.** -/
theorem resume_string {s : String} (hs : IsString s) :
    resume pos none tokens ((Kind.string s).spelling ++ cs)
      = resume (pos.after (Kind.string s).spelling) none (tokens.push ⟨.string s, pos⟩) cs := by
  have hline : '\n' ∉ (Kind.string s).spelling := by
    have hquoted : ∀ c ∈ s.toList, '\n' ∉ quoted c := by
      intro c hc hmem
      have hne : '\n' ≠ c := fun h => hs.oneLine (h ▸ hc)
      unfold quoted at hmem
      split at hmem <;> simp_all
    simp only [Kind.spelling, List.mem_cons, List.mem_append, List.mem_flatMap, List.not_mem_nil]
    rintro (h | ⟨c, hc, hmem⟩ | h | h)
    · cases h
    · exact hquoted c hc hmem
    · cases h
    · cases h
  have hlast : (Kind.string s).spelling.getLast? ≠ some '\r' := by
    rw [Kind.spelling, ← List.cons_append, List.getLast?_concat]
    decide
  refine resume_token_of_pass hline hlast ?_
  have hread : readString pos (pos.col + 1) [] (s.toList.flatMap quoted ++ '"' :: lineRest cs)
      = .ok (s.toList, lineRest cs, pos.col + 1 + columns (s.toList.flatMap quoted) + 1) :=
    readString_flatMap_quoted hs.code_le (by simpa [String.length_toList] using hs.length_le)
  have hcol : columns (Kind.string s).spelling = 1 + columns (s.toList.flatMap quoted) + 1 := by
    rw [Kind.spelling, columns_cons, columns_append, Nat.add_assoc]
    rfl
  rw [hcol, ← Nat.add_assoc, ← Nat.add_assoc]
  simp only [Kind.spelling, List.cons_append, List.append_assoc, List.nil_append, Scanner.pass]
  rw [hread]
  simp only [Scanner.emit, String.ofList_toList]

theorem isWordChar_of_isDigit (hc : c.isDigit) : isWordChar c := by
  have hsymbol : isSymbol c = false := by
    refine Bool.eq_false_iff.2 fun hs => ?_
    rw [(symbol_facts hs).2.2.2] at hc
    cases hc
  have hquote : c ≠ '"' := by
    rintro rfl
    cases hc
  have hblank : Text.isBlank c = false := by
    have hrange : 48 ≤ c.toNat ∧ c.toNat ≤ 57 := by
      simp only [Char.isDigit, ge_iff_le, Bool.and_eq_true, decide_eq_true_eq,
        UInt32.le_iff_toNat_le] at hc
      exact hc
    refine Bool.eq_false_iff.2 fun hb => ?_
    simp only [Text.isBlank, Text.blankRanges, List.any_cons, List.any_nil, Bool.or_eq_true,
      Bool.and_eq_true, decide_eq_true_eq, Bool.or_false] at hb
    omega
  simp [isWordChar, hsymbol, hquote, hblank]

theorem ofWord_keyword (k : Keyword) : ofWord pos k.word.toList = .ok (.keyword k) := by
  have hdigit : ¬ k.word.toList.head?.any Char.isDigit := by
    cases k <;> decide
  simp only [ofWord, if_neg hdigit, String.ofList_toList, Keyword.ofWord?_word]

theorem ofWord_name {s : String} (hs : IsName s) : ofWord pos s.toList = .ok (.name s) := by
  simp only [ofWord, if_neg hs.noDigit, String.ofList_toList, hs.noKeyword]

theorem ofWord_integer {n : UInt16} (hn : n.toNat ≤ limit) :
    ofWord pos (Nat.toDigits 10 n.toNat) = .ok (.integer n) := by
  obtain ⟨d, ds, hd⟩ := List.exists_cons_of_ne_nil (Nat.toDigits_ne_nil (n := n.toNat) (b := 10))
  have hdigit : (Nat.toDigits 10 n.toNat).head?.any Char.isDigit := by
    have hmem : d ∈ Nat.toDigits 10 n.toNat := by simp [hd]
    rw [hd]
    exact Nat.isDigit_of_mem_toDigits (by decide) (by decide) hmem
  simp only [ofWord, if_pos hdigit, Text.numeral?_toDigits, if_neg (Nat.not_lt.2 hn),
    UInt16.ofNat_toNat]

/-- The token does not reach into the text behind it: that is empty, or it begins with a blank or a
comment, but behind a slash with no comment. -/
def EndsBefore (k : Kind) (cs : List Char) : Prop :=
  ∀ c, cs.head? = some c → Text.isBlank c ∨ c = '/' ∧ k ≠ .symbol '/'

/-- A slash before such a text begins no comment: neither a slash nor a star comes next. -/
theorem EndsBefore.no_comment (h : EndsBefore (.symbol c) cs) (hc : c = '/') :
    cs.head? ≠ some '/' ∧ cs.head? ≠ some '*' := by
  have hnext : ∀ d, Text.isBlank d = false → cs.head? ≠ some d := by
    intro d hd hhead
    rcases h d hhead with hb | ⟨-, hne⟩
    · rw [hb] at hd
      cases hd
    · exact hne (congrArg _ hc)
  exact ⟨hnext _ rfl, hnext _ rfl⟩

/-- A word ends before such a text. -/
theorem EndsBefore.no_wordChar {k : Kind} (h : EndsBefore k cs) (hc : cs.head? = some c) :
    isWordChar c = false := by
  rcases h c hc with hb | ⟨rfl, -⟩
  · simp [isWordChar, hb]
  · rfl

/-- **A token is read from its spelling**, if no other token can reach into what follows. -/
theorem resume_token {k : Kind} (hk : k.WellFormed) (hcs : EndsBefore k cs) :
    resume pos none tokens (k.spelling ++ cs)
      = resume (pos.after k.spelling) none (tokens.push ⟨k, pos⟩) cs := by
  have hstop : ∀ c, cs.head? = some c → isWordChar c = false := fun c hc => hcs.no_wordChar hc
  cases k with
  | keyword k =>
    refine resume_word ?_ (List.all_eq_true.1 ?_) hstop (ofWord_keyword k)
    · cases k <;> decide
    · cases k <;> decide
  | symbol c => exact resume_symbol hk hcs.no_comment
  | integer n =>
    have hdigits : ∀ c ∈ Nat.toDigits 10 n.toNat, isWordChar c := fun c hc =>
      isWordChar_of_isDigit (Nat.isDigit_of_mem_toDigits (by decide) (by decide) hc)
    exact resume_word Nat.toDigits_ne_nil hdigits hstop (ofWord_integer hk)
  | string s => exact resume_string hk
  | name s => exact resume_word hk.ne_nil hk.wordChars hstop (ofWord_name hk)

/-! ## Whole texts -/

/-- The first token ends before the space behind it. -/
theorem endsBefore_of_separated {k : Kind} {gap : Gap} {items : List (Kind × Gap)}
    (h : Separated ((k, gap) :: items)) :
    EndsBefore k (gap.text ++ items.flatMap fun (k, gap) => k.spelling ++ gap.text) := by
  obtain ⟨⟨s, rest, hgap, hslash⟩ | ⟨hgap, rfl⟩, -⟩ := h
  · have hs : s.WellFormed := gap.wellFormed s (by simp [hgap])
    intro d hd
    rw [Gap.text, hgap] at hd
    cases s with
    | blank c => exact .inl (Option.some.inj hd ▸ hs)
    | _ =>
      refine .inr ⟨(Option.some.inj hd).symm, fun hk => ?_⟩
      obtain ⟨c, hc⟩ := hslash hk
      cases hc
  · simp [EndsBefore, Gap.text, hgap]

/-- Tokens that the gaps between them separate are read in order. -/
theorem resume_items {items : List (Kind × Gap)} (hkinds : ∀ item ∈ items, item.1.WellFormed)
    (hsep : Separated items) (pos : Position) (tokens : Array Token) :
    resume pos none tokens (items.flatMap fun (k, gap) => k.spelling ++ gap.text)
      = .ok (tokens.toList ++ placed pos items) := by
  induction items generalizing pos tokens with
  | nil =>
    rw [placed, List.append_nil]
    exact resume_nil
  | cons item items ih =>
    obtain ⟨k, gap⟩ := item
    obtain ⟨hk, hkinds⟩ := List.forall_mem_cons.1 hkinds
    rw [List.flatMap_cons, List.append_assoc, resume_token hk (endsBefore_of_separated hsep),
      resume_gap, ih hkinds hsep.2, ← after_append, Array.toList_push, List.append_assoc]
    rfl

/-- **Scanning undoes spelling**, whatever the layout. -/
theorem ofSource_sourceText (lead : Gap) (items : List (Kind × Gap))
    (hkinds : ∀ item ∈ items, item.1.WellFormed) (hsep : Separated items) :
    ofSource (String.ofList (sourceText lead items))
      = .ok (placed (Position.after ⟨0, 0⟩ lead.text) items) := by
  rw [ofSource_eq_resume, String.toList_ofList, sourceText, resume_gap, resume_items hkinds hsep]
  rfl

/-- A comment of two lines before the text. -/
def leadingComment : Gap :=
  { spacers := [.blockComment "* Greets\n  * twice. ".toList, .blank '\n', .blank '\t']
    wellFormed := by decide +kernel }

/-- A single blank. -/
def oneBlank : Gap :=
  { spacers := [.blank ' ']
    wellFormed := by decide +kernel }

/-- An ideographic space and a comment up to the end of the line. -/
def trailingComment : Gap :=
  { spacers := [.blank '\u3000', .lineComment " \"*/".toList]
    wellFormed := by decide +kernel }

/-- An assignment. -/
def greeting : List (Kind × Gap) :=
  [(.keyword .let, oneBlank), (.name "é", oneBlank), (.symbol '=', oneBlank),
    (.string "\\ \"", trailingComment), (.symbol '/', oneBlank),
    (.integer 32767, ⟨[.blockComment []], by decide +kernel⟩), (.symbol ';', ⟨[], by decide⟩)]

/-- The assignment with its comments, as a text. -/
def greetingText : String :=
  "/** Greets\n  * twice. */\n\tlet é = \"\\\\ \\\"\"\u3000// \"*/\n/ 32767/**/;"

theorem ofSource_greetingText :
    (∀ item ∈ greeting, item.1.WellFormed) ∧ Separated greeting ∧
      ofSource greetingText = .ok
        [⟨.keyword .let, ⟨2, 1⟩⟩, ⟨.name "é", ⟨2, 5⟩⟩, ⟨.symbol '=', ⟨2, 8⟩⟩,
          ⟨.string "\\ \"", ⟨2, 10⟩⟩, ⟨.symbol '/', ⟨3, 0⟩⟩, ⟨.integer 32767, ⟨3, 2⟩⟩,
          ⟨.symbol ';', ⟨3, 11⟩⟩] := by
  have hkinds : ∀ item ∈ greeting, item.1.WellFormed := by
    have hname : IsName "é" :=
      ⟨by decide, List.all_eq_true.1 (by decide), by decide, by decide +kernel⟩
    have hstring : IsString "\\ \"" := ⟨by decide, by simp; decide, by decide⟩
    simp only [greeting, List.forall_mem_cons, Kind.WellFormed]
    exact ⟨trivial, hname, by decide, hstring, by decide, by decide, by decide, by simp⟩
  have hsep : Separated greeting := by
    simp [Separated, greeting, Gap.Separates, oneBlank, trailingComment]
  have htext : greetingText = String.ofList (sourceText leadingComment greeting) := by
    decide +kernel
  refine ⟨hkinds, hsep, ?_⟩
  rw [htext, ofSource_sourceText leadingComment greeting hkinds hsep]
  exact congrArg Except.ok (by decide +kernel)

end Token

end JackCompiler
