import JackCompiler.CommandLine.Sources
import Mathlib.Data.List.DropRight
/-!
# The pieces of a path

How the operations on paths act on their pieces. A path whose last piece names something has that
piece as its file name, what is before it as its parent, and itself and the ancestors of that as its
ancestors. Joining paths joins their pieces, and so a path below a directory has the pieces of the
directory followed by names.
-/

namespace JackCompiler

namespace Path

variable {lead : Lead} {pieces : List String} {piece : String}

/-- All pieces name something but the empty one and the dot. -/
theorem isProper_iff : isProper piece ↔ piece ≠ "" ∧ piece ≠ "." := by
  simp [isProper]

/-- A piece that can be the name of a file or a directory. -/
structure IsName (name : String) : Prop where
  proper : isProper name
  ne_up : name ≠ ".."
  noSlash : '/' ∉ name.toList

instance (name : String) : Decidable (IsName name) :=
  decidable_of_iff (isProper name ∧ name ≠ ".." ∧ '/' ∉ name.toList)
    ⟨fun h => ⟨h.1, h.2.1, h.2.2⟩, fun h => ⟨h.proper, h.ne_up, h.noSlash⟩⟩

/-! ## The last piece -/

@[simp]
theorem trimEnd_nil : trimEnd [] = [] := rfl

/-- A piece at the end that names something stays there. -/
theorem trimEnd_concat (h : isProper piece) : trimEnd (pieces ++ [piece]) = pieces ++ [piece] :=
  List.rdropWhile_concat_neg (fun piece => !isProper piece) pieces piece (by simp [h])

/-- A piece at the end that names nothing goes away. -/
theorem trimEnd_concat_of_not (h : ¬ isProper piece) :
    trimEnd (pieces ++ [piece]) = trimEnd pieces :=
  List.rdropWhile_concat_pos (fun piece => !isProper piece) pieces piece (by simp [h])

/-- What is left ends in a piece that names something. -/
theorem isProper_of_trimEnd {front : List String} {last : String}
    (h : trimEnd pieces = front ++ [last]) : isProper last := by
  induction pieces using List.reverseRecOn with
  | nil => simp at h
  | append_singleton pieces piece ih =>
    by_cases hpiece : isProper piece
    · rw [trimEnd_concat hpiece] at h
      obtain ⟨-, rfl⟩ := List.append_singleton_inj.1 h
      exact hpiece
    · rw [trimEnd_concat_of_not hpiece] at h
      exact ih h

/-- A name at the end is the file name. -/
theorem fileName?_concat (h : isProper piece) (hup : piece ≠ "..") :
    fileName? ⟨lead, pieces ++ [piece]⟩ = some piece := by
  unfold fileName?
  rw [trimEnd_concat h, List.getLast?_concat]
  split
  · next heq => exact absurd (Option.some_inj.1 heq) hup
  · rfl

/-- A path that ends in `..` has no file name. -/
theorem fileName?_up : fileName? ⟨lead, pieces ++ [".."]⟩ = none := by
  unfold fileName?
  rw [trimEnd_concat (by decide), List.getLast?_concat]
  simp

/-- The parent of a path is what stands before its last name. -/
theorem parent?_concat (h : isProper piece) :
    parent? ⟨lead, pieces ++ [piece]⟩ = some ⟨lead, trimEnd pieces⟩ := by
  unfold parent?
  rw [trimEnd_concat h]
  split
  · next heq => simp at heq
  · rw [List.dropLast_concat]

/-! ## Ancestors -/

/-- The beginnings of a list of pieces that end in one that names something, the longest first. -/
def fronts (pieces : List String) : List (List String) :=
  (List.range' 1 pieces.length).reverse.filterMap fun n =>
    if (pieces.take n).getLast?.any isProper then some (pieces.take n) else none

/-- A piece that names something adds a beginning, the longest one. -/
theorem fronts_concat :
    fronts (pieces ++ [piece])
      = (if isProper piece then [pieces ++ [piece]] else []) ++ fronts pieces := by
  have hshorter : ∀ n ∈ (List.range' 1 pieces.length).reverse,
      (pieces ++ [piece]).take n = pieces.take n := by
    intro n hn
    rw [List.mem_reverse, List.mem_range'_1] at hn
    exact List.take_append_of_le_length (by omega)
  unfold fronts
  rw [List.length_append, List.length_singleton, List.range'_concat, List.reverse_append,
    List.filterMap_append]
  congr 1
  · have hlength : (pieces ++ [piece]).length ≤ 1 + 1 * pieces.length := by
      rw [List.length_append, List.length_singleton]
      omega
    have htake : (pieces ++ [piece]).take (1 + 1 * pieces.length) = pieces ++ [piece] :=
      List.take_of_length_le hlength
    rw [List.reverse_singleton, List.filterMap_cons, htake, List.getLast?_concat, Option.any_some]
    by_cases h : isProper piece
    · rw [if_pos h, if_pos h, List.filterMap_nil]
    · rw [if_neg h, if_neg h, List.filterMap_nil]
  · exact List.filterMap_congr fun n hn => by rw [hshorter n hn]

/-- Pieces that name nothing end no beginning. -/
theorem fronts_trimEnd (pieces : List String) : fronts (trimEnd pieces) = fronts pieces := by
  induction pieces using List.reverseRecOn with
  | nil => rfl
  | append_singleton pieces piece ih =>
    by_cases h : isProper piece
    · rw [trimEnd_concat h]
    · rw [trimEnd_concat_of_not h, ih, fronts_concat, if_neg h, List.nil_append]

/-- The ancestors of a path are its beginnings, and where it starts if that is written. -/
theorem ancestors_eq (lead : Lead) (pieces : List String) :
    ancestors ⟨lead, pieces⟩
      = (fronts pieces).map (Path.mk lead) ++ if lead = .relative then [] else [⟨lead, []⟩] := by
  have hbelow : (List.range' 1 (trimEnd pieces).length).reverse.filterMap (fun n =>
      if ((trimEnd pieces).take n).getLast?.any isProper
      then some (Path.mk lead ((trimEnd pieces).take n)) else none)
      = (fronts (trimEnd pieces)).map (Path.mk lead) := by
    rw [fronts, List.map_filterMap]
    refine List.filterMap_congr fun n _ => ?_
    split <;> rfl
  rw [← fronts_trimEnd, ← hbelow]
  unfold ancestors
  split
  · simp
  · rfl

/-- The ancestors of a path are the path and those of its parent. -/
theorem ancestors_concat (h : isProper piece) :
    ancestors ⟨lead, pieces ++ [piece]⟩
      = ⟨lead, pieces ++ [piece]⟩ :: ancestors ⟨lead, pieces⟩ := by
  rw [ancestors_eq, ancestors_eq, fronts_concat, if_pos h]
  rfl

theorem ancestors_concat_of_not (h : ¬ isProper piece) :
    ancestors ⟨lead, pieces ++ [piece]⟩ = ancestors ⟨lead, pieces⟩ := by
  rw [ancestors_eq, ancestors_eq, fronts_concat, if_neg h]
  rfl

/-! ## The text -/

/-- A further piece is written behind a slash. -/
theorem text_concat (h : lead = .current ∨ pieces ≠ []) :
    text ⟨lead, pieces ++ [piece]⟩ = text ⟨lead, pieces⟩ ++ "/" ++ piece := by
  cases lead with
  | current =>
    have hne : "." :: pieces ≠ [] := List.cons_ne_nil _ _
    simp only [text]
    rw [← List.cons_append, String.intercalate_append_of_ne_nil hne (List.cons_ne_nil _ _),
      String.intercalate_singleton]
  | root =>
    have hne : pieces ≠ [] := h.resolve_left (by simp)
    simp only [text]
    rw [String.intercalate_append_of_ne_nil hne (List.cons_ne_nil _ _),
      String.intercalate_singleton, ← String.append_assoc, ← String.append_assoc]
  | relative =>
    have hne : pieces ≠ [] := h.resolve_left (by simp)
    simp only [text]
    rw [String.intercalate_append_of_ne_nil hne (List.cons_ne_nil _ _),
      String.intercalate_singleton]

/-- The first piece is written without a slash. -/
theorem text_singleton (h : lead ≠ .current) :
    text ⟨lead, [piece]⟩ = text ⟨lead, []⟩ ++ piece := by
  cases lead with
  | current => exact absurd rfl h
  | root | relative => simp [text]

/-- One more piece makes the text no shorter, and the text is at least as long as the piece. -/
theorem utf8ByteSize_text_concat (lead : Lead) (pieces : List String) (piece : String) :
    (text ⟨lead, pieces⟩).utf8ByteSize ≤ (text ⟨lead, pieces ++ [piece]⟩).utf8ByteSize ∧
      piece.utf8ByteSize ≤ (text ⟨lead, pieces ++ [piece]⟩).utf8ByteSize := by
  by_cases h : lead = .current ∨ pieces ≠ []
  · rw [text_concat h, String.utf8ByteSize_append, String.utf8ByteSize_append]
    omega
  · obtain ⟨hlead, hpieces⟩ := not_or.1 h
    rw [not_not.1 hpieces, List.nil_append, text_singleton hlead, String.utf8ByteSize_append]
    omega

theorem text_concat_ne_empty (h : piece ≠ "") : text ⟨lead, pieces ++ [piece]⟩ ≠ "" := by
  intro htext
  have hsize := (utf8ByteSize_text_concat lead pieces piece).2
  rw [htext, String.utf8ByteSize_empty, Nat.le_zero, String.utf8ByteSize_eq_zero_iff] at hsize
  exact h hsize

/-! ## Joined paths -/

/-- The pieces of a directory that stand before what is joined to it. The empty piece behind a slash
at its end does not. -/
def base (p : Path) : List String :=
  if p.pieces.getLast? = some "" then p.pieces.dropLast else p.pieces

/-- A text is split at a slash, whatever stands on its sides. -/
theorem split_append (a b : List Char) : split (a ++ '/' :: b) = split a ++ split b := by
  rw [split, List.splitOn_append_cons_self, List.map_append]
  rfl

/-- **Names with slashes between them are split into these names.** -/
theorem split_intercalate {names : List String} (hne : names ≠ [])
    (hslash : ∀ name ∈ names, '/' ∉ name.toList) :
    split ("/".intercalate names).toList = names := by
  have hsplit : List.splitOn '/' (['/'].intercalate (names.map String.toList))
      = names.map String.toList := by
    refine List.splitOn_intercalate '/' ?_ (by simpa using hne)
    intro cs hcs
    obtain ⟨name, hname, rfl⟩ := List.mem_map.1 hcs
    exact hslash name hname
  have htext : ("/".intercalate names).toList = ['/'].intercalate (names.map String.toList) :=
    String.toList_intercalate
  rw [split, htext, hsplit]
  simp [Function.comp_def]

/-- The path that begins with the first of the pieces. -/
def ofPieces : List String → Path
  | "." :: pieces => ⟨.current, pieces⟩
  | pieces => ⟨.relative, pieces⟩

/-- Pieces behind the first do not change where a path starts. -/
theorem ofPieces_append {a : List String} (ha : a ≠ []) (b : List String) :
    ofPieces (a ++ b) = ⟨(ofPieces a).lead, (ofPieces a).pieces ++ b⟩ := by
  obtain ⟨first, rest, rfl⟩ := List.exists_cons_of_ne_nil ha
  by_cases h : first = "."
  · subst h
    rfl
  · have hrelative : ∀ rest, ofPieces (first :: rest) = ⟨.relative, first :: rest⟩ := by
      intro rest
      unfold ofPieces
      split
      · next heq => exact absurd (List.cons.inj heq).1 h
      · rfl
    rw [List.cons_append, hrelative, hrelative]
    rfl

/-- A path that begins with a slash starts at the top. -/
theorem ofString_root {s : String} {rest : List Char} (h : s.toList = '/' :: rest) :
    ofString s = ⟨.root, split rest⟩ := by
  unfold ofString
  split
  · next heq =>
    rw [h] at heq
    cases heq
    rfl
  · next hne => exact absurd h (hne rest)

/-- Any other path starts with its first piece. -/
theorem ofString_of_head_ne {s : String} (h : s.toList.head? ≠ some '/') :
    ofString s = ofPieces (split s.toList) := by
  unfold ofString
  split
  · next heq => simp [heq] at h
  · rfl

theorem split_ne_nil (cs : List Char) : split cs ≠ [] := by
  simp [split, List.splitOn_ne_nil]

/-- A slash and more text behind a path are more pieces. -/
theorem ofString_append {s : String} (hs : s ≠ "") (r : String) :
    ofString (s ++ "/" ++ r)
      = ⟨(ofString s).lead, (ofString s).pieces ++ split r.toList⟩ := by
  have htext : (s ++ "/" ++ r).toList = s.toList ++ '/' :: r.toList := by simp
  obtain ⟨c, rest, hcs⟩ := List.exists_cons_of_ne_nil (mt String.toList_eq_nil_iff.1 hs)
  by_cases hc : c = '/'
  · subst hc
    rw [hcs] at htext
    rw [ofString_root hcs, ofString_root htext]
    exact congrArg (Path.mk .root) (split_append rest r.toList)
  · have hhead : s.toList.head? ≠ some '/' := by simpa [hcs] using hc
    have hhead' : (s ++ "/" ++ r).toList.head? ≠ some '/' := by simpa [htext, hcs] using hc
    rw [ofString_of_head_ne hhead, ofString_of_head_ne hhead', htext, split_append,
      ofPieces_append (split_ne_nil _)]

/-- The text of a path ends in a slash, or is empty, if the last piece is empty. -/
theorem getLast?_text_concat_empty (lead : Lead) (pieces : List String) :
    text ⟨lead, pieces ++ [""]⟩ = ""
      ∨ (text ⟨lead, pieces ++ [""]⟩).toList.getLast? = some '/' := by
  by_cases h : lead = .current ∨ pieces ≠ []
  · rw [text_concat h]
    simp
  · obtain ⟨hlead, hpieces⟩ := not_or.1 h
    rw [not_not.1 hpieces, List.nil_append, text_singleton hlead]
    cases lead with
    | root => exact .inr (by decide)
    | current => exact absurd rfl hlead
    | relative => exact .inl (by decide)

/-- Names on their own are a path from the working directory. -/
theorem ofPieces_of_isProper {names : List String} (hproper : ∀ name ∈ names, isProper name) :
    ofPieces names = ⟨.relative, names⟩ := by
  unfold ofPieces
  split
  · exact absurd (hproper "." List.mem_cons_self) (by decide)
  · rfl

theorem base_concat_empty : base ⟨lead, pieces ++ [""]⟩ = pieces := by
  rw [base, if_pos List.getLast?_concat, List.dropLast_concat]

/-- Names with slashes between them are a path on their own. -/
theorem ofString_intercalate {names : List String} (hne : names ≠ [])
    (hslash : ∀ name ∈ names, '/' ∉ name.toList) (hproper : ∀ name ∈ names, isProper name) :
    ofString ("/".intercalate names) = ⟨.relative, names⟩ := by
  have hsplit := split_intercalate hne hslash
  have hhead : ("/".intercalate names).toList.head? ≠ some '/' := by
    intro h
    obtain ⟨rest, hrest⟩ := List.head?_eq_some_iff.1 h
    rw [hrest, ← List.nil_append ('/' :: rest), split_append] at hsplit
    have hempty : "" ∈ names := by
      rw [← hsplit]
      exact List.mem_cons_self
    exact absurd (hproper "" hempty) (by decide)
  rw [ofString_of_head_ne hhead, hsplit, ofPieces_of_isProper hproper]

/-- **Joining a path to a directory joins their pieces.** -/
theorem join_ofString {names : List String} (s : String) (hne : names ≠ [])
    (hslash : ∀ name ∈ names, '/' ∉ name.toList) (hproper : ∀ name ∈ names, isProper name) :
    (ofString s).join ⟨.relative, names⟩ = ⟨(ofString s).lead, (ofString s).base ++ names⟩ := by
  have hsplit := split_intercalate hne hslash
  have hjoin : (ofString s).join ⟨.relative, names⟩
      = ofString (s ++ (if s = "" || s.toList.getLast? = some '/' then "" else "/")
        ++ "/".intercalate names) := by
    rw [join, if_neg (by simp), text_ofString]
    rfl
  rw [hjoin]
  by_cases hs : s = ""
  · subst hs
    have hempty : ofString "" = ⟨.relative, [] ++ [""]⟩ := by decide
    rw [hempty, base_concat_empty]
    exact ofString_intercalate hne hslash hproper
  · by_cases hend : s.toList.getLast? = some '/'
    · obtain ⟨front, hfront⟩ := List.getLast?_eq_some_iff.1 hend
      obtain rfl : s = String.ofList front ++ "/" := by
        apply String.toList_inj.1
        simp [hfront]
      rw [if_pos (by simp)]
      by_cases hf : String.ofList front = ""
      · -- the directory is the top of the tree
        rw [hf]
        have htop : ofString ("" ++ "/") = ⟨.root, [] ++ [""]⟩ := by decide
        have hroot : ("" ++ "/" ++ "" ++ "/".intercalate names).toList
            = '/' :: ("/".intercalate names).toList := by simp
        rw [htop, base_concat_empty, ofString_root hroot, hsplit]
        rfl
      · have hpath := ofString_append hf ""
        rw [String.append_empty] at hpath
        rw [String.append_empty, ofString_append hf, hsplit, hpath]
        exact congrArg (Path.mk _ <| · ++ names) base_concat_empty.symm
    · have hbase : (ofString s).base = (ofString s).pieces := by
        refine if_neg fun hlast => ?_
        obtain ⟨pieces, hpieces⟩ := List.getLast?_eq_some_iff.1 hlast
        have htext := getLast?_text_concat_empty (ofString s).lead pieces
        rw [← hpieces, text_ofString] at htext
        exact htext.elim hs hend
      rw [if_neg (by simp [hs, hend]), ofString_append hs, hsplit, hbase]

/-! ## Extensions -/

/-- The extension of a name is what stands behind its last dot. -/
theorem splitExtension_append {stem extension : String} (hstem : stem ≠ "")
    (hext : '.' ∉ extension.toList) :
    splitExtension (stem ++ "." ++ extension) = (stem, some extension) := by
  have hreverse : (stem ++ "." ++ extension).toList.reverse
      = extension.toList.reverse ++ '.' :: stem.toList.reverse := by simp
  have hplain : ∀ c ∈ extension.toList.reverse, (c != '.') = true := by
    intro c hc
    have hc' : c ∈ extension.toList := List.mem_reverse.1 hc
    simp only [bne_iff_ne]
    rintro rfl
    exact hext hc'
  obtain ⟨c, rest, hrest⟩ := List.exists_cons_of_ne_nil
    (by simpa using hstem : stem.toList.reverse ≠ [])
  have hstem' : String.ofList (c :: rest).reverse = stem := by
    rw [← hrest, List.reverse_reverse, String.ofList_toList]
  have htake : ('.' :: c :: rest).takeWhile (· != '.') = [] := rfl
  have hdrop : ('.' :: c :: rest).dropWhile (· != '.') = '.' :: c :: rest := rfl
  unfold splitExtension
  rw [hreverse, List.takeWhile_append_of_pos hplain, List.dropWhile_append_of_pos hplain, hrest,
    htake, hdrop, List.append_nil]
  change (String.ofList (c :: rest).reverse, some (String.ofList extension.toList.reverse.reverse))
    = _
  rw [hstem', List.reverse_reverse, String.ofList_toList]

/-- A name with an extension has a stem before the dot. -/
theorem exists_stem_of_splitExtension {name extension : String}
    (h : (splitExtension name).2 = some extension) :
    ∃ stem, stem ≠ "" ∧ name = stem ++ "." ++ extension := by
  unfold splitExtension at h
  split at h
  · cases h
  · cases h
  · next dot before hbefore hdrop =>
    obtain rfl : dot = '.' := by
      have hdot := List.head?_dropWhile_not (· != '.') name.toList.reverse
      rw [hdrop] at hdot
      simpa using hdot
    have hext : String.ofList (name.toList.reverse.takeWhile (· != '.')).reverse = extension :=
      Option.some_inj.1 h
    have hname : name.toList.reverse
        = name.toList.reverse.takeWhile (· != '.') ++ '.' :: before := by
      rw [← hdrop, List.takeWhile_append_dropWhile]
    refine ⟨String.ofList before.reverse, ?_, ?_⟩
    · intro hempty
      exact hbefore (by simpa using hempty)
    · apply String.toList_inj.1
      rw [← hext]
      have := congrArg List.reverse hname
      simpa using this

/-- The name of the file for the code of a source. The name `..jack` is the exception: what is left
of it without its extension is no file name. -/
def codeName (stem : String) : String :=
  if stem = "." then ".." else stem ++ "." ++ "vm"

/-- A name with an extension names something. -/
theorem isProper_append_dot (stem extension : String) (h : stem ≠ "") :
    isProper (stem ++ "." ++ extension) := by
  have hsize : 2 ≤ (stem ++ "." ++ extension).utf8ByteSize := by
    have hstem := mt String.utf8ByteSize_eq_zero_iff.1 h
    have hdot : ".".utf8ByteSize = 1 := by decide
    rw [String.utf8ByteSize_append, String.utf8ByteSize_append]
    omega
  have hne : ∀ s : String, s.utf8ByteSize ≤ 1 → stem ++ "." ++ extension ≠ s := by
    rintro s hs rfl
    omega
  exact isProper_iff.2 ⟨hne "" (by decide), hne "." (by decide)⟩

/-- The last piece of the path for the code of a source names something. -/
theorem isProper_codeName {stem : String} (h : stem ≠ "") : isProper (codeName stem) := by
  unfold codeName
  split
  · decide
  · exact isProper_append_dot stem "vm" h

section CodeName

variable {names : List String} {stem : String} (hnames : ∀ name ∈ names, IsName name)

include hnames

theorem isProper_concat_codeName (h : stem ≠ "") :
    ∀ name ∈ names ++ [codeName stem], isProper name :=
  List.forall_mem_append.2 ⟨fun name hname => (hnames name hname).proper,
    List.forall_mem_singleton.2 (isProper_codeName h)⟩

theorem noSlash_concat_codeName (h : '/' ∉ stem.toList) :
    ∀ name ∈ names ++ [codeName stem], '/' ∉ name.toList := by
  refine List.forall_mem_append.2 ⟨fun name hname => (hnames name hname).noSlash,
    List.forall_mem_singleton.2 ?_⟩
  unfold codeName
  split
  · decide
  · simpa using h

end CodeName

/-- Another file name takes the place of the last piece. -/
theorem withFileName_concat {name : String} (h : isProper piece) :
    withFileName ⟨lead, pieces ++ [piece]⟩ name = ⟨lead, pieces ++ [name]⟩ := by
  rw [withFileName, trimEnd_concat h, List.dropLast_concat]

/-- Without a file name a path gets no extension. -/
theorem withExtension_of_none {p q : Path} {extension : String} (hdrop : p.dropExtension = q)
    (h : q.fileName? = none) : p.withExtension extension = q := by
  unfold withExtension
  simp only [hdrop, h]

/-- With a file name a path gets the extension behind the stem. -/
theorem withExtension_of_some {p q : Path} {extension name : String} (hdrop : p.dropExtension = q)
    (h : q.fileName? = some name) :
    p.withExtension extension = q.withFileName ((splitExtension name).1 ++ "." ++ extension) := by
  unfold withExtension
  simp only [hdrop, h]

/-- **The code of a source has the name of the source** with another extension. -/
theorem withExtension_concat {stem : String} (hstem : stem ≠ "") :
    withExtension ⟨lead, pieces ++ [stem ++ "." ++ "jack"]⟩ "vm"
      = ⟨lead, pieces ++ [codeName stem]⟩ := by
  have hdrop : dropExtension ⟨lead, pieces ++ [stem ++ "." ++ "jack"]⟩
      = ⟨lead, pieces ++ [stem ++ "."]⟩ := by
    have hlast : (pieces ++ [stem ++ "." ++ "jack"]).getLast?.map splitExtension
        = some (stem, some "jack") := by
      rw [List.getLast?_concat, Option.map_some, splitExtension_append hstem (by decide)]
    unfold dropExtension
    rw [hlast]
    exact withFileName_concat (isProper_append_dot stem "jack" hstem)
  have hbare := isProper_append_dot stem "" hstem
  have hsplit : splitExtension (stem ++ "." ++ "") = (stem, some "") :=
    splitExtension_append hstem (by decide)
  rw [String.append_empty] at hbare hsplit
  by_cases hdot : stem = "."
  · subst hdot
    exact withExtension_of_none hdrop fileName?_up
  · have hup : stem ++ "." ≠ ".." := fun h => hdot ((String.append_left_inj ".").1 h)
    rw [withExtension_of_some hdrop (fileName?_concat hbare hup), withFileName_concat hbare, hsplit,
      codeName, if_neg hdot]

/-! ## Relative paths -/

/-- The components of a directory are taken off a path below it. Only pieces that name nothing are
left before the rest. -/
theorem dropComponents_append (a b : List String) :
    ∃ c, dropComponents (a ++ b) (a.filter isProper) = some (c ++ b)
      ∧ ∀ piece ∈ c, ¬ isProper piece := by
  induction a with
  | nil =>
    refine ⟨[], ?_, by simp⟩
    cases b <;> rfl
  | cons piece a ih =>
    by_cases hpiece : isProper piece
    · rw [List.filter_cons_of_pos hpiece, List.cons_append, dropComponents,
        if_neg (by simp [hpiece]),
        if_pos rfl]
      exact ih
    · rw [List.filter_cons_of_neg hpiece]
      cases hfilter : a.filter isProper with
      | nil =>
        refine ⟨piece :: a, rfl, ?_⟩
        have := List.filter_eq_nil_iff.1 hfilter
        simpa [hpiece] using this
      | cons name names =>
        rw [hfilter] at ih
        rw [List.cons_append, dropComponents, if_pos (by simp [hpiece])]
        exact ih

/-- A directory has the same components with and without a slash at its end. -/
theorem filter_base (p : Path) : p.base.filter isProper = p.pieces.filter isProper := by
  unfold base
  split
  · next h =>
    obtain ⟨front, hfront⟩ := List.getLast?_eq_some_iff.1 h
    have hempty : ¬ isProper "" := by decide
    rw [hfront, List.dropLast_concat, List.filter_append, List.filter_cons_of_neg hempty,
      List.filter_nil, List.append_nil]
  · rfl

/-- A path that is not empty has components. -/
theorem components_ofString_ne_nil {s : String} (hs : s ≠ "") : (ofString s).components ≠ [] := by
  obtain ⟨c, rest, hcs⟩ := List.exists_cons_of_ne_nil (mt String.toList_eq_nil_iff.1 hs)
  by_cases hc : c = '/'
  · subst hc
    rw [ofString_root hcs]
    exact List.cons_ne_nil _ _
  · have hhead : s.toList.head? ≠ some '/' := by simpa [hcs] using hc
    obtain ⟨first, others, hsplit⟩ := List.exists_cons_of_ne_nil (List.splitOn_ne_nil '/' rest)
    -- the first piece begins with the first character
    have hpieces : split s.toList = String.ofList (c :: first) :: others.map String.ofList := by
      have hne : (c == '/') = false := by simpa using hc
      rw [hcs, split, List.splitOn_cons_eq_if_modifyHead, hsplit, if_neg (by simp [hne])]
      rfl
    rw [ofString_of_head_ne hhead, hpieces]
    by_cases hdot : String.ofList (c :: first) = "."
    · rw [hdot]
      exact List.cons_ne_nil _ _
    · have hproper : isProper (String.ofList (c :: first)) := by
        have hempty : String.ofList (c :: first) ≠ "" := by simp
        exact isProper_iff.2 ⟨hempty, hdot⟩
      have hrelative : ofPieces (String.ofList (c :: first) :: others.map String.ofList)
          = ⟨.relative, String.ofList (c :: first) :: others.map String.ofList⟩ := by
        unfold ofPieces
        split
        · next heq => exact absurd (List.cons.inj heq).1 hdot
        · rfl
      rw [hrelative, components, List.filter_cons_of_pos hproper]
      exact List.cons_ne_nil _ _

/-- **A path below a directory, seen from there**, is the names on the way. -/
theorem relativeTo?_base (s : String) {names : List String} (hne : names ≠ [])
    (hproper : ∀ name ∈ names, isProper name) :
    relativeTo? ⟨(ofString s).lead, (ofString s).base ++ names⟩ (ofString s)
      = some ⟨.relative, names⟩ := by
  have hend : trimEnd names = names := by
    obtain ⟨front, last, rfl⟩ := List.eq_nil_or_concat' names |>.resolve_left hne
    exact trimEnd_concat (hproper last (by simp))
  by_cases hs : s = ""
  · subst hs
    have hcomponents : (ofString "").components.isEmpty := by decide
    rw [relativeTo?, if_pos hcomponents]
    exact congrArg (fun pieces => some (Path.mk .relative pieces)) hend
  · obtain ⟨c, hdrop, hc⟩ := dropComponents_append (ofString s).base names
    have hstart : trimStart (c ++ names) = names := by
      obtain ⟨name, rest, rfl⟩ := List.exists_cons_of_ne_nil hne
      have hname := hproper name List.mem_cons_self
      have hc' : ∀ piece ∈ c, (!isProper piece) = true := fun piece h => by simpa using hc piece h
      rw [trimStart, List.dropWhile_append_of_pos hc', List.dropWhile_cons_of_neg (by simp [hname])]
    have hcomponents : (ofString s).components.isEmpty = false := by
      simpa using components_ofString_ne_nil hs
    rw [filter_base] at hdrop
    rw [relativeTo?, if_neg (by simp [hcomponents]), if_pos rfl, hdrop, Option.map_some, hstart,
      hend]

end Path

namespace CommandLine

open JackCompiler.Path

/-- **Where the code of a source goes**: to the same names below the output directory, or else below
the input, as the source has below the input. -/
theorem target_base (s : String) (dir : Option String) {names : List String}
    (hnames : ∀ name ∈ names, IsName name) {stem : String} (hstem : stem ≠ "")
    (hslash : '/' ∉ stem.toList) :
    target ⟨(ofString s).lead, (ofString s).base ++ names ++ [stem ++ "." ++ "jack"]⟩ (ofString s)
        (dir.map ofString)
      = ⟨(ofString (dir.getD s)).lead,
          (ofString (dir.getD s)).base ++ names ++ [codeName stem]⟩ := by
  unfold target
  rw [withExtension_concat hstem]
  cases dir with
  | none => rfl
  | some d =>
    have hne : names ++ [codeName stem] ≠ [] := by simp
    have hproper := isProper_concat_codeName hnames hstem
    have hslashes := noSlash_concat_codeName hnames hslash
    have htext : (Path.mk .relative (names ++ [codeName stem])).text ≠ "" :=
      text_concat_ne_empty (isProper_iff.1 (isProper_codeName hstem)).1
    rw [List.append_assoc, Option.map_some]
    simp only [relativeTo?_base s hne hproper]
    rw [Option.filter_some, if_pos (by simpa using htext)]
    change (ofString d).join _ = _
    rw [join_ofString d hne hslashes hproper, Option.getD_some, List.append_assoc]

end CommandLine

end JackCompiler
