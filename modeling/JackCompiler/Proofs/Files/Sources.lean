import JackCompiler.Proofs.Files.Storing
import Mathlib.Data.List.Lex
import Mathlib.Data.String.Basic
/-!
# The sources below a directory

The sources that are collected below a directory differ from it by names (`SourceName`), no two of
them are the same, and they are in order. Because of the order, the directories that are made for
the code of one source are never where the code of a later one goes: that would be `X.vm`, for a
source `X.jack`, which comes before everything below a directory `X.vm`.
-/

namespace JackCompiler

/-! ## Well-formed trees -/

namespace FileTree

variable {α : Type}

mutual

/-- The entries of every directory have names, and no two of them have the same. -/
def WellFormed : FileTree α → Prop
  | .file _ => True
  | .directory entries => EntriesWellFormed entries

/-- The entries have names, no two of them have the same, and they are well-formed. -/
def EntriesWellFormed : List (String × FileTree α) → Prop
  | [] => True
  | (name, t) :: rest =>
    Path.IsName name ∧ name ∉ rest.map Prod.fst ∧ t.WellFormed ∧ EntriesWellFormed rest

end

mutual

/-- Whether a tree is well-formed can be decided. -/
def decideWellFormed : (t : FileTree α) → Decidable t.WellFormed
  | .file _ => .isTrue trivial
  | .directory entries => decideEntriesWellFormed entries

/-- Whether the entries of a directory are well-formed can be decided. -/
def decideEntriesWellFormed :
    (entries : List (String × FileTree α)) → Decidable (EntriesWellFormed entries)
  | [] => .isTrue trivial
  | (name, t) :: rest =>
    have := decideWellFormed t
    have := decideEntriesWellFormed rest
    inferInstanceAs (Decidable (Path.IsName name ∧ name ∉ rest.map Prod.fst ∧ t.WellFormed ∧
      EntriesWellFormed rest))

end

instance (t : FileTree α) : Decidable t.WellFormed :=
  decideWellFormed t

/-- Below the name of the first entry one finds what is in that entry. -/
theorem find_cons_self {name : String} {t : FileTree α} {entries : List (String × FileTree α)}
    {rest : List String} :
    (FileTree.directory ((name, t) :: entries)).find (name :: rest) = t.find rest := by
  rw [find_directory_cons, List.lookup_cons_self]

/-- Below another name one finds what is in the other entries. -/
theorem find_cons_of_ne {name other : String} {t : FileTree α}
    {entries : List (String × FileTree α)} {rest : List String} (h : other ≠ name) :
    (FileTree.directory ((name, t) :: entries)).find (other :: rest)
      = (FileTree.directory entries).find (other :: rest) := by
  rw [find_directory_cons, find_directory_cons, List.lookup_cons, beq_false_of_ne h]

/-- Below a name that is not listed there is nothing. -/
theorem find_directory_of_notMem {name : String} {entries : List (String × FileTree α)}
    {rest : List String} (h : name ∉ entries.map Prod.fst) :
    (FileTree.directory entries).find (name :: rest) = .nothing := by
  have hlookup : entries.lookup name = none := by
    rw [List.lookup_eq_none_iff]
    intro entry hentry
    rw [bne_iff_ne]
    rintro rfl
    exact h (List.mem_map_of_mem hentry)
  rw [find_directory_cons, hlookup]

/-- A file is found also with a new entry before the others. -/
theorem find_cons_of_file {name : String} {t : FileTree α} {entries : List (String × FileTree α)}
    {place : List String} {content : α} (hnew : name ∉ entries.map Prod.fst)
    (h : (FileTree.directory entries).find place = .file content) :
    (FileTree.directory ((name, t) :: entries)).find place = .file content := by
  cases place with
  | nil => cases h
  | cons first place =>
    have hne : first ≠ name := by
      rintro rfl
      rw [find_directory_of_notMem hnew] at h
      cases h
    rwa [find_cons_of_ne hne]

/-- The entry of a well-formed directory has a name and is well-formed. -/
theorem EntriesWellFormed.of_lookup {entries : List (String × FileTree α)} {name : String}
    {t : FileTree α} (hwf : EntriesWellFormed entries) (h : entries.lookup name = some t) :
    Path.IsName name ∧ t.WellFormed := by
  induction entries with
  | nil => cases h
  | cons entry entries ih =>
    obtain ⟨other, u⟩ := entry
    obtain ⟨hother, -, hu, hrest⟩ := hwf
    by_cases hname : name = other
    · subst hname
      rw [List.lookup_cons_self] at h
      cases h
      exact ⟨hother, hu⟩
    · rw [List.lookup_cons, beq_false_of_ne hname] at h
      exact ih hrest h

/-- The way to a file leads along names. -/
theorem isName_of_find {entries : List (String × FileTree α)} {place : List String} {content : α}
    (hwf : EntriesWellFormed entries)
    (h : (FileTree.directory entries).find place = .file content) :
    ∀ name ∈ place, Path.IsName name := by
  induction place generalizing entries with
  | nil => simp
  | cons name place ih =>
    rw [find_directory_cons] at h
    cases hlookup : entries.lookup name with
    | none =>
      rw [hlookup] at h
      cases h
    | some t =>
      rw [hlookup] at h
      obtain ⟨hname, ht⟩ := hwf.of_lookup hlookup
      refine List.forall_mem_cons.2 ⟨hname, ?_⟩
      cases t with
      | directory entries => exact ih ht h
      | file content =>
        cases place with
        | nil => simp
        | cons => cases h

end FileTree

namespace Path

/-! ## The order of paths -/

/-- Components are ordered as texts are. -/
theorem componentLt_iff {a b : String} : componentLt a b = true ↔ a < b := by
  have hchar : ∀ c d : Char, decide (c.toNat < d.toNat) = true ↔ c < d := fun _ _ =>
    decide_eq_true_iff
  rw [componentLt, String.lt_iff_toList_lt, List.lex_eq_true_iff_lex, ← List.lex_lt]
  simp only [hchar]

/-- Paths are ordered as the lists of their components are. -/
theorem le_iff {p q : Path} : p.le q = true ↔ p.components ≤ q.components := by
  rw [le, ← not_lt, ← List.lex_lt, Bool.not_eq_true', ← Bool.not_eq_true, List.lex_eq_true_iff_lex]
  simp only [componentLt_iff]

/-- Sorted paths are in order. -/
theorem pairwise_le_mergeSort (paths : List Path) :
    (paths.mergeSort le).Pairwise fun p q => p.components ≤ q.components := by
  have htrans : ∀ a b c : Path, a.le b = true → b.le c = true → a.le c = true :=
    fun a b c hab hbc => le_iff.2 ((le_iff.1 hab).trans (le_iff.1 hbc))
  have htotal : ∀ a b : Path, (a.le b || b.le a) = true := by
    intro a b
    rw [Bool.or_eq_true, le_iff, le_iff]
    exact le_total _ _
  exact (List.pairwise_mergeSort htrans htotal paths).imp le_iff.1

/-- Paths that differ behind a common beginning are in the order of what differs. -/
theorem components_append_lt {lead : Lead} {pieces a b : List String}
    (ha : ∀ name ∈ a, isProper name)
    (hb : ∀ name ∈ b, isProper name) (h : a < b) :
    components ⟨lead, pieces ++ a⟩ < components ⟨lead, pieces ++ b⟩ := by
  have hnames : (pieces ++ a).filter isProper < (pieces ++ b).filter isProper := by
    rw [List.filter_append, List.filter_append, List.filter_eq_self.2 ha, List.filter_eq_self.2 hb]
    exact List.append_left_lt h
  cases lead with
  | root | current => exact List.cons_lt_cons_iff.2 (.inr ⟨rfl, hnames⟩)
  | relative => exact hnames

/-- What follows a common beginning can be told from the components. -/
theorem append_inj_of_components {lead : Lead} {pieces a b : List String}
    (ha : ∀ name ∈ a, isProper name) (hb : ∀ name ∈ b, isProper name)
    (h : components ⟨lead, pieces ++ a⟩ = components ⟨lead, pieces ++ b⟩) : a = b := by
  rcases lt_trichotomy a b with hlt | heq | hlt
  · exact absurd h (components_append_lt ha hb hlt).ne
  · exact heq
  · exact absurd h (components_append_lt hb ha hlt).ne'

/-! ## Paths below a directory -/

/-- The path is the one that its text spells. -/
def Spelled (p : Path) : Prop :=
  ofString p.text = p

/-- A path that was typed is spelled. -/
theorem spelled_ofString (s : String) : (ofString s).Spelled := by
  rw [Spelled, text_ofString]

variable {dir : Path} {name : String}

/-- A name on its own is a path from the working directory. -/
theorem ofString_name (h : IsName name) : ofString name = ⟨.relative, [name]⟩ := by
  have hname : ofString ("/".intercalate [name]) = ⟨.relative, [name]⟩ :=
    ofString_intercalate (by simp) (by simpa using h.noSlash) (by simpa using h.proper)
  rwa [String.intercalate_singleton] at hname

/-- A name that is joined to a directory is its last piece. -/
theorem join_name (hdir : dir.Spelled) (h : IsName name) :
    dir.join (ofString name) = ⟨dir.lead, dir.base ++ [name]⟩ := by
  have hjoin : (ofString dir.text).join ⟨.relative, [name]⟩
      = ⟨(ofString dir.text).lead, (ofString dir.text).base ++ [name]⟩ :=
    join_ofString dir.text (by simp) (by simpa using h.noSlash) (by simpa using h.proper)
  rwa [hdir, ← ofString_name h] at hjoin

/-- A name below a directory that is spelled is so too. -/
theorem spelled_join_name (hdir : dir.Spelled) (h : IsName name) :
    Spelled ⟨dir.lead, dir.base ++ [name]⟩ := by
  rw [← join_name hdir h, join, if_neg (by simp [ofString_name h])]
  exact spelled_ofString _

theorem base_concat (h : IsName name) {lead : Lead} {pieces : List String} :
    base ⟨lead, pieces ++ [name]⟩ = pieces ++ [name] := by
  have hne : name ≠ "" := (isProper_iff.1 h.proper).1
  exact if_neg (by simpa using hne)

end Path

namespace CommandLine

open JackCompiler.Path (IsName isProper codeName)

/-! ## The name of a source -/

/-- The name of a source below a directory: the directories on the way to it, and its file name
without the extension. -/
structure SourceName where
  names : List String
  stem : String
  isName : ∀ name ∈ names, IsName name
  stem_ne : stem ≠ ""
  noSlash : '/' ∉ stem.toList

namespace SourceName

/-- The file name of the source. -/
def fileName (n : SourceName) : String :=
  n.stem ++ "." ++ "jack"

/-- The location of the source below the directory. -/
def place (n : SourceName) : List String :=
  n.names ++ [n.fileName]

/-- The path of the source. -/
def path (n : SourceName) (dir : Path) : Path :=
  ⟨dir.lead, dir.base ++ n.place⟩

/-- The path of the code of the source, below a directory. -/
def codePath (n : SourceName) (dir : Path) : Path :=
  ⟨dir.lead, dir.base ++ n.names ++ [codeName n.stem]⟩

theorem place_ne_nil (n : SourceName) : n.place ≠ [] :=
  List.append_ne_nil_of_right_ne_nil _ (List.cons_ne_nil _ _)

/-- The file name of a source names something. -/
theorem isProper_fileName (n : SourceName) : isProper n.fileName :=
  Path.isProper_append_dot n.stem "jack" n.stem_ne

/-- The file name of a source is not `..`. -/
theorem fileName_ne_up (n : SourceName) : n.fileName ≠ ".." := by
  intro h
  have hlast := congrArg (fun s : String => s.toList.getLast?) h
  simp [fileName] at hlast

/-- There is no slash in the file name of a source. -/
theorem noSlash_fileName (n : SourceName) : '/' ∉ n.fileName.toList := by
  simpa [fileName] using n.noSlash

/-- A source is reached along names. -/
theorem isName_place (n : SourceName) : ∀ name ∈ n.place, IsName name := by
  intro name hname
  rcases List.mem_append.1 hname with hname | hname
  · exact n.isName name hname
  · rw [List.mem_singleton.1 hname]
    exact ⟨n.isProper_fileName, n.fileName_ne_up, n.noSlash_fileName⟩

end SourceName

/-! ## What is collected -/

variable {α : Type}

/-- A file has the extension of a source just if it has the name of one. -/
theorem extension?_eq_jack {lead : Path.Lead} {pieces names : List String}
    (hnames : ∀ name ∈ names, IsName name) (hne : names ≠ []) :
    Path.extension? ⟨lead, pieces ++ names⟩ = some "jack" ↔ ∃ n : SourceName, n.place = names := by
  obtain ⟨front, name, rfl⟩ := (List.eq_nil_or_concat' names).resolve_left hne
  have hname : IsName name := hnames name (by simp)
  rw [← List.append_assoc, Path.extension?, Path.fileName?_concat hname.proper hname.ne_up,
    Option.bind_some]
  constructor
  · intro hext
    obtain ⟨stem, hstem, rfl⟩ := Path.exists_stem_of_splitExtension hext
    have hslash : '/' ∉ stem.toList := by
      have hslash := hname.noSlash
      simp only [String.toList_append, List.mem_append, not_or] at hslash
      exact hslash.1.1
    exact ⟨⟨front, stem, fun other h => hnames other (by simp [h]), hstem, hslash⟩, rfl⟩
  · rintro ⟨n, hplace⟩
    obtain ⟨-, rfl⟩ := List.append_singleton_inj.1 hplace
    rw [SourceName.fileName, Path.splitExtension_append n.stem_ne (by decide)]

mutual

/-- The paths that are collected in a directory are those of its files, as far as they have the
extension of a source. -/
theorem mem_sourcesBelow_iff_find {dir p : Path} (hdir : dir.Spelled) :
    (entries : List (String × FileTree α)) → FileTree.EntriesWellFormed entries →
    (p ∈ sourcesBelow dir entries ↔ p.extension? = some "jack" ∧ ∃ place content,
      p = ⟨dir.lead, dir.base ++ place⟩ ∧ (FileTree.directory entries).find place = .file content)
  | [], _ => by
    have hempty : ∀ (place : List String) (content : α),
        (FileTree.directory []).find place ≠ .file content := by
      intro place content h
      cases place <;> cases h
    simp [sourcesBelow, hempty]
  | (name, t) :: rest, hwf => by
    obtain ⟨hname, hnew, ht, hrest⟩ := hwf
    rw [sourcesBelow, List.mem_append, Path.join_name hdir hname,
      mem_sourcesIn_iff_find hdir hname t ht, mem_sourcesBelow_iff_find hdir rest hrest,
      ← and_or_left]
    refine and_congr_right fun _ => ⟨?_, ?_⟩
    · rintro (⟨place, content, rfl, hfile⟩ | ⟨place, content, rfl, hfile⟩)
      · exact ⟨name :: place, content, rfl, by rwa [FileTree.find_cons_self]⟩
      · exact ⟨place, content, rfl, FileTree.find_cons_of_file hnew hfile⟩
    · rintro ⟨place, content, rfl, hfile⟩
      cases place with
      | nil => cases hfile
      | cons first place =>
        by_cases hfirst : first = name
        · subst hfirst
          rw [FileTree.find_cons_self] at hfile
          exact .inl ⟨place, content, rfl, hfile⟩
        · rw [FileTree.find_cons_of_ne hfirst] at hfile
          exact .inr ⟨first :: place, content, rfl, hfile⟩

/-- So are the paths that are collected at one of its entries. -/
theorem mem_sourcesIn_iff_find {dir p : Path} (hdir : dir.Spelled) {name : String}
    (hname : IsName name) :
    (t : FileTree α) → t.WellFormed →
    (p ∈ sourcesIn ⟨dir.lead, dir.base ++ [name]⟩ t ↔ p.extension? = some "jack" ∧
      ∃ place content, p = ⟨dir.lead, dir.base ++ name :: place⟩ ∧ t.find place = .file content)
  | .file content, _ => by
    rw [sourcesIn]
    constructor
    · intro hp
      split at hp
      · next hext =>
        obtain rfl := List.mem_singleton.1 hp
        exact ⟨hext, [], content, rfl, rfl⟩
      · cases hp
    · rintro ⟨hext, place, content', rfl, hfile⟩
      cases place with
      | nil => rw [if_pos hext, List.mem_singleton]
      | cons => cases hfile
  | .directory entries, hwf => by
    rw [sourcesIn, mem_sourcesBelow_iff_find (Path.spelled_join_name hdir hname) entries hwf,
      Path.base_concat hname]
    simp only [List.append_assoc, List.singleton_append]

end

/-- **What is collected in a directory are the files with the name of a source.** -/
theorem mem_sourcesBelow {dir p : Path} (hdir : dir.Spelled)
    {entries : List (String × FileTree α)} (hwf : FileTree.EntriesWellFormed entries) :
    p ∈ sourcesBelow dir entries ↔ ∃ n : SourceName, p = n.path dir ∧
      ∃ content, (FileTree.directory entries).find n.place = .file content := by
  rw [mem_sourcesBelow_iff_find hdir entries hwf]
  constructor
  · rintro ⟨hext, place, content, rfl, hfile⟩
    have hplace : place ≠ [] := by
      rintro rfl
      cases hfile
    obtain ⟨n, rfl⟩ := (extension?_eq_jack (FileTree.isName_of_find hwf hfile) hplace).1 hext
    exact ⟨n, rfl, content, hfile⟩
  · rintro ⟨n, rfl, content, hfile⟩
    exact ⟨(extension?_eq_jack n.isName_place n.place_ne_nil).2 ⟨n, rfl⟩, n.place, content, rfl,
      hfile⟩

mutual

/-- **No path is collected twice.** -/
theorem nodup_sourcesBelow {dir : Path} (hdir : dir.Spelled) :
    (entries : List (String × FileTree α)) → FileTree.EntriesWellFormed entries →
    (sourcesBelow dir entries).Nodup
  | [], _ => List.nodup_nil
  | (name, t) :: rest, hwf => by
    obtain ⟨hname, hnew, ht, hrest⟩ := hwf
    rw [sourcesBelow, Path.join_name hdir hname, List.nodup_append]
    refine ⟨nodup_sourcesIn (Path.spelled_join_name hdir hname) t ht,
      nodup_sourcesBelow hdir rest hrest, ?_⟩
    rintro p hp _ hp' rfl
    -- a path below one entry has its name behind the directory, one below the others another
    obtain ⟨-, place, content, rfl, -⟩ := (mem_sourcesIn_iff_find hdir hname t ht).1 hp
    obtain ⟨-, place', content', heq, hfile⟩ := (mem_sourcesBelow_iff_find hdir rest hrest).1 hp'
    obtain rfl := List.append_cancel_left (congrArg Path.pieces heq)
    rw [FileTree.find_directory_of_notMem hnew] at hfile
    cases hfile

/-- No source is found twice in a tree. -/
theorem nodup_sourcesIn {path : Path} (hpath : path.Spelled) :
    (t : FileTree α) → t.WellFormed → (sourcesIn path t).Nodup
  | .file _, _ => by
    rw [sourcesIn]
    split <;> simp
  | .directory entries, hwf => by
    rw [sourcesIn]
    exact nodup_sourcesBelow hpath entries hwf

end

section Collect

variable {dir p : Path} {entries : List (String × FileTree α)}

/-- The sources of a directory are those found below it, in order. -/
theorem collect_directory :
    collect dir (some (.directory entries)) = (sourcesBelow dir entries).mergeSort Path.le := by
  rw [collect, sourcesIn]

/-- **The sources of a directory are the files below it that have the name of one.** -/
theorem mem_collect (hdir : dir.Spelled) (hwf : FileTree.EntriesWellFormed entries) :
    p ∈ collect dir (some (.directory entries)) ↔ ∃ n : SourceName, p = n.path dir ∧
      ∃ content, (FileTree.directory entries).find n.place = .file content := by
  rw [collect_directory, List.mem_mergeSort, mem_sourcesBelow hdir hwf]

/-- No source is collected twice. -/
theorem nodup_collect (hdir : dir.Spelled) (hwf : FileTree.EntriesWellFormed entries) :
    (collect dir (some (.directory entries))).Nodup := by
  rw [collect_directory, (List.mergeSort_perm _ _).nodup_iff]
  exact nodup_sourcesBelow hdir entries hwf

/-- Sources are collected in the order of their paths. -/
theorem pairwise_collect :
    (collect dir (some (.directory entries))).Pairwise
      fun p q => p.components ≤ q.components := by
  rw [collect_directory]
  exact Path.pairwise_le_mergeSort _

end Collect

/-! ## What one finds who knows only paths -/

/-- A directory whose path is not too long is seen as one. -/
theorem outline_directory {dir : Path} {entries : List (String × FileTree α)}
    (hshort : FileSystem.isTooLong dir = false) :
    FileSystem.outline dir (.directory entries)
      = .directory (FileSystem.outlineBelow dir entries) := by
  rw [FileSystem.outline, if_neg (by simp [hshort])]

/-- All entries of a directory are seen, under their names. -/
theorem map_fst_outlineBelow (dir : Path) (entries : List (String × FileTree α)) :
    (FileSystem.outlineBelow dir entries).map Prod.fst = entries.map Prod.fst := by
  induction entries with
  | nil => rfl
  | cons entry entries ih =>
    obtain ⟨name, t⟩ := entry
    rw [FileSystem.outlineBelow, List.map_cons, List.map_cons, ih]

mutual

/-- What is seen of the entries of a directory is as well-formed as they are. -/
theorem wellFormed_outlineBelow (dir : Path) :
    (entries : List (String × FileTree α)) → FileTree.EntriesWellFormed entries →
    FileTree.EntriesWellFormed (FileSystem.outlineBelow dir entries)
  | [], _ => trivial
  | (name, t) :: rest, ⟨hname, hnew, ht, hrest⟩ => by
    rw [FileSystem.outlineBelow]
    refine ⟨hname, ?_, wellFormed_outline _ t ht, wellFormed_outlineBelow dir rest hrest⟩
    rwa [map_fst_outlineBelow]

/-- What is seen of a tree is as well-formed as the tree. -/
theorem wellFormed_outline (path : Path) :
    (t : FileTree α) → t.WellFormed → (FileSystem.outline path t).WellFormed
  | .file _, _ => trivial
  | .directory entries, hwf => by
    rw [FileSystem.outline]
    split
    · trivial
    · exact wellFormed_outlineBelow path entries hwf

end

section Seen

open FileSystem (isTooLong)

/-- What one finds at a place below a directory is taken for a file: the directory that it is in can
be searched, and it is a file, or a directory whose own path is too long. -/
structure SeenAsFile (dir : Path) (place : List String) (found : FileTree.Finding α) : Prop where
  way : isTooLong ⟨dir.lead, dir.base ++ place.dropLast⟩ = false
  there : (∃ content, found = .file content) ∨
    found = .directory ∧ isTooLong ⟨dir.lead, dir.base ++ place⟩ = true

/-- A path that is not too long has no beginning that is. -/
theorem isTooLong_of_append {lead : Path.Lead} {pieces rest : List String}
    (h : isTooLong ⟨lead, pieces ++ rest⟩ = false) : isTooLong ⟨lead, pieces⟩ = false := by
  induction rest using List.reverseRecOn with
  | nil => rwa [List.append_nil] at h
  | append_singleton rest piece ih =>
    rw [← List.append_assoc] at h
    exact ih (FileSystem.isTooLong_of_concat h)

theorem isTooLong_base {dir : Path} (h : isTooLong dir = false) :
    isTooLong ⟨dir.lead, dir.base⟩ = false := by
  obtain ⟨lead, pieces⟩ := dir
  rw [Path.base]
  split
  · next hlast =>
    obtain ⟨front, rfl⟩ := List.getLast?_eq_some_iff.1 hlast
    rw [List.dropLast_concat]
    exact FileSystem.isTooLong_of_concat h
  · exact h

variable {dir : Path} {name : String} {place : List String}

/-- Nothing is taken for a file where there is nothing. -/
theorem seenAsFile_nothing : ¬ SeenAsFile dir place (.nothing : FileTree.Finding α) := by
  rintro ⟨-, ⟨content, hfile⟩ | ⟨hdirectory, -⟩⟩
  · cases hfile
  · cases hdirectory

/-- Whether something is taken for a file can be asked from the entry that it is in. -/
theorem seenAsFile_cons (hname : IsName name) (hplace : place ≠ [])
    {found : FileTree.Finding α} :
    SeenAsFile dir (name :: place) found
      ↔ SeenAsFile ⟨dir.lead, dir.base ++ [name]⟩ place found := by
  have hbase : Path.base ⟨dir.lead, dir.base ++ [name]⟩ = dir.base ++ [name] :=
    Path.base_concat hname
  have hlast : (name :: place).dropLast = name :: place.dropLast :=
    List.dropLast_cons_of_ne_nil hplace
  constructor <;> rintro ⟨hway, hthere⟩
  · exact ⟨by simpa [hbase, hlast] using hway, by simpa [hbase] using hthere⟩
  · exact ⟨by simpa [hbase, hlast] using hway, by simpa [hbase] using hthere⟩

mutual

/-- **What one takes for a file in a directory**, knowing only paths. -/
theorem find_outlineBelow {dir : Path} (hdir : dir.Spelled)
    (hshort : isTooLong ⟨dir.lead, dir.base⟩ = false) {place : List String} (hplace : place ≠ []) :
    (entries : List (String × FileTree α)) → FileTree.EntriesWellFormed entries →
    ((FileTree.directory (FileSystem.outlineBelow dir entries)).find place = .file () ↔
      SeenAsFile dir place ((FileTree.directory entries).find place))
  | [], _ => by
    obtain ⟨first, place, rfl⟩ := List.exists_cons_of_ne_nil hplace
    exact iff_of_false (fun hfile => by cases hfile) seenAsFile_nothing
  | (name, t) :: rest, hwf => by
    obtain ⟨first, place, rfl⟩ := List.exists_cons_of_ne_nil hplace
    obtain ⟨hname, hnew, ht, hrest⟩ := hwf
    rw [FileSystem.outlineBelow, Path.join_name hdir hname]
    by_cases hfirst : first = name
    · subst hfirst
      rw [FileTree.find_cons_self, FileTree.find_cons_self, find_outline hdir hshort hname t ht]
    · rw [FileTree.find_cons_of_ne hfirst, FileTree.find_cons_of_ne hfirst,
        find_outlineBelow hdir hshort hplace rest hrest]

/-- So it is at one of its entries. -/
theorem find_outline {dir : Path} (hdir : dir.Spelled)
    (hshort : isTooLong ⟨dir.lead, dir.base⟩ = false) {name : String} (hname : IsName name)
    {place : List String} :
    (t : FileTree α) → t.WellFormed →
    ((FileSystem.outline ⟨dir.lead, dir.base ++ [name]⟩ t).find place = .file () ↔
      SeenAsFile dir (name :: place) (t.find place))
  | .file content, _ => by
    cases place with
    | nil => exact iff_of_true rfl ⟨by simpa using hshort, .inl ⟨content, rfl⟩⟩
    | cons => exact iff_of_false (fun hfile => by cases hfile) seenAsFile_nothing
  | .directory entries, hwf => by
    rw [FileSystem.outline]
    by_cases hlong : isTooLong ⟨dir.lead, dir.base ++ [name]⟩ = true
    · rw [if_pos hlong]
      cases place with
      | nil => exact iff_of_true rfl ⟨by simpa using hshort, .inr ⟨rfl, hlong⟩⟩
      | cons first place =>
        refine iff_of_false (fun hfile => by cases hfile) fun hseen => ?_
        have hway := ((seenAsFile_cons hname (List.cons_ne_nil first place)).1 hseen).way
        rw [Path.base_concat hname] at hway
        rw [isTooLong_of_append hway] at hlong
        cases hlong
    · rw [if_neg hlong]
      cases place with
      | nil =>
        refine iff_of_false (fun hfile => by cases hfile) ?_
        rintro ⟨-, ⟨content, hfile⟩ | ⟨-, hlong'⟩⟩
        · cases hfile
        · exact absurd hlong' hlong
      | cons first place =>
        have hplace := List.cons_ne_nil first place
        rw [seenAsFile_cons hname hplace]
        refine find_outlineBelow (Path.spelled_join_name hdir hname) ?_ hplace entries hwf
        rw [Path.base_concat hname]
        exact Bool.eq_false_of_not_eq_true hlong

end

end Seen

/-- The path is one of a source: its name, and where the source is if its path can be followed. -/
def IsSource (dir : Path) (tree : FileTree α) (n : SourceName) (p : Path) : Prop :=
  p = n.path dir ∧ (FileSystem.isTooLong p ∨ ∃ content, tree.find n.place = .file content)

/-! ## The sources of a run -/

/-- What is known of the sources that are collected below a directory. It also holds of some of
them. -/
structure Collected (dir : Path) (tree : FileTree α) (sources : List Path) : Prop where
  isSource : ∀ p ∈ sources, ∃ n, IsSource dir tree n p
  nodup : sources.Nodup
  sorted : sources.Pairwise fun p q => p.components ≤ q.components

/-- Some of the collected sources are in order too, and each once. -/
theorem Collected.sublist {dir : Path} {tree : FileTree α} {sources some : List Path}
    (h : Collected dir tree sources) (hsome : some.Sublist sources) : Collected dir tree some where
  isSource p hp := h.isSource p (hsome.subset hp)
  nodup := h.nodup.sublist hsome
  sorted := h.sorted.sublist hsome

/-- **What is collected is the sources below a directory**, each once and in order. -/
theorem collected {dir : Path} {tree : FileTree α} {entries : List (String × FileTree α)}
    (hdir : dir.Spelled) (hshort : FileSystem.isTooLong dir = false)
    (htree : tree = .directory entries) (hwf : tree.WellFormed) :
    Collected dir tree (collect dir (some (FileSystem.outline dir tree))) := by
  subst htree
  have hwf' := wellFormed_outlineBelow dir entries hwf
  rw [outline_directory hshort]
  refine ⟨fun p hp => ?_, nodup_collect hdir hwf', pairwise_collect⟩
  obtain ⟨n, rfl, content, hfile⟩ := (mem_collect hdir hwf').1 hp
  have hseen := (find_outlineBelow hdir (isTooLong_base hshort) n.place_ne_nil entries hwf).1 hfile
  exact ⟨n, rfl, hseen.there.symm.imp_left And.right⟩

end CommandLine

/-! ## Finding a source -/

namespace FileSystem

variable {α : Type} {fs fs' : FileSystem α} {dir p : Path} {tree : FileTree α}

/-- A path leads to a directory if one is at the place to which it leads. -/
theorem directoryAt?_eq_some :
    fs.directoryAt? p = some tree ↔
      ∃ place entries, fs.locate p = .ok place ∧ fs.tree.get? place = some tree ∧
        tree = .directory entries := by
  unfold directoryAt?
  cases fs.locate p with
  | error => simp [Except.toOption]
  | ok place =>
    simp only [Except.toOption, Option.bind_some, Except.ok.injEq, exists_eq_left',
      exists_and_left]
    rcases fs.tree.get? place with _ | _ | entries
    · simp
    · simp only [Option.some.injEq, reduceCtorEq, false_iff, not_and]
      rintro rfl
      simp
    · simp only [Option.some.injEq]
      constructor
      · rintro rfl
        exact ⟨rfl, entries, rfl⟩
      · exact fun h => h.1

/-- A slash at the end of a path leads nowhere else. -/
theorem foldl_walk_base (p : Path) (start : List String) :
    p.base.foldl walk start = p.pieces.foldl walk start := by
  unfold Path.base
  split
  · next h =>
    obtain ⟨front, hfront⟩ := List.getLast?_eq_some_iff.1 h
    have hempty : ¬ Path.isProper "" := by decide
    rw [hfront, List.dropLast_concat, List.foldl_append]
    exact (walk_of_not_proper hempty).symm
  · rfl

theorem base_prefix_pieces (p : Path) : p.base <+: p.pieces := by
  unfold Path.base
  split
  · exact List.dropLast_prefix _
  · exact List.prefix_rfl

/-- The directories on the way to a source are there. -/
theorem passes_source {root : List String} {n : CommandLine.SourceName} {content : α}
    (hdir : fs.locate dir = .ok root) (htree : fs.tree.get? root = some tree)
    (hfile : tree.find n.place = .file content) :
    fs.Passes (fs.origin dir.lead) (dir.base ++ n.names) ∧
      fs.find (root ++ n.place) = .file content := by
  obtain ⟨-, -, hfollows, rfl⟩ := locate_eq_ok.1 hdir
  have hthere : fs.find (fs.destination dir ++ n.place) = .file content := by
    rw [find, FileTree.find_eq_file, FileTree.get?_append, htree]
    exact FileTree.find_eq_file.1 hfile
  -- something is below each of the places on the way
  have hbelow : ∀ front, front <+: n.names →
      fs.find (fs.destination dir ++ front) = .directory := by
    rintro front ⟨rest, hrest⟩
    have hplace : fs.destination dir ++ n.place
        = (fs.destination dir ++ front) ++ (rest ++ [n.fileName]) := by
      rw [CommandLine.SourceName.place, ← hrest]
      simp only [List.append_assoc]
    rw [hplace, find] at hthere
    have hrest : rest ++ [n.fileName] ≠ [] := by simp
    refine FileTree.find_of_find_append hrest fun hnothing => ?_
    rw [hnothing] at hthere
    cases hthere
  have hroot : fs.find (fs.destination dir) = .directory := by
    simpa using hbelow [] List.nil_prefix
  refine ⟨fun q hq => ?_, hthere⟩
  rcases (visits_append_names n.isName).1 hq with hq | ⟨front, hfront, rfl⟩
  · exact hfollows.passes hroot q (hq.mono (base_prefix_pieces dir))
  · rw [foldl_walk_base]
    exact hbelow front hfront

/-- A source is at its place below the input. -/
theorem destination_source (fs : FileSystem α) (n : CommandLine.SourceName) (dir : Path) :
    fs.destination (n.path dir) = fs.destination dir ++ n.place := by
  rw [destination, CommandLine.SourceName.path, List.foldl_append, foldl_walk_names n.isName_place,
    foldl_walk_base, destination]

/-- A path that is too long leads nowhere. -/
theorem locate_of_isTooLong (h : isTooLong p) : fs.locate p = .error .nameTooLong := by
  rw [locate, FileSystem.start, if_pos h]
  rfl

/-- **The path of a source leads to it**, unless the path or one of its names is too long. -/
theorem locate_source {root : List String} {n : CommandLine.SourceName}
    (hdir : fs.locate dir = .ok root) (htree : fs.tree.get? root = some tree)
    (hsource : CommandLine.IsSource dir tree n p) :
    (fs.locate p = .ok (fs.destination p) ∧
        ∃ content, fs.find (fs.destination p) = .file content) ∨
      fs.locate p = .error .nameTooLong := by
  obtain ⟨rfl, hlong | ⟨content, hfile⟩⟩ := hsource
  · exact .inr (locate_of_isTooLong hlong)
  · by_cases hlong : isTooLong (n.path dir)
    · exact .inr (locate_of_isTooLong hlong)
    · obtain ⟨hpasses, hthere⟩ := passes_source hdir htree hfile
      obtain ⟨-, -, -, rfl⟩ := locate_eq_ok.1 hdir
      have hplace : fs.destination (n.path dir)
          = walk ((dir.base ++ n.names).foldl walk (fs.origin dir.lead)) n.fileName := by
        rw [destination_source, List.foldl_append, foldl_walk_names n.isName, foldl_walk_base,
          walk_name n.isProper_fileName n.fileName_ne_up, List.append_assoc]
        rfl
      rw [← destination_source] at hthere
      have hpieces : (n.path dir).pieces = dir.base ++ n.names ++ [n.fileName] := by
        rw [List.append_assoc]
        rfl
      have htext : (n.path dir).text ≠ "" := by
        have htext : Path.text ⟨dir.lead, dir.base ++ n.names ++ [n.fileName]⟩ ≠ "" :=
          Path.text_concat_ne_empty (Path.isProper_iff.1 n.isProper_fileName).1
        rwa [← hpieces] at htext
      have hstart : fs.start (n.path dir) = .ok (fs.origin dir.lead) :=
        start_eq_ok.2 ⟨by simpa using hlong, htext, rfl⟩
      have hlast : fs.find (walk ((dir.base ++ n.names).foldl walk (fs.origin dir.lead))
          n.fileName) ≠ .nothing := by
        rw [← hplace, hthere]
        simp
      have hwalk := hpasses.foldlM_step_concat hlast
      rw [← hpieces] at hwalk
      rw [FileSystem.locate, hstart]
      exact hwalk.imp_left fun hok => ⟨hok, content, hthere⟩

/-- A file is read where its path leads. -/
theorem read_of_locate {place : List String} {content : α} (h : fs.locate p = .ok place)
    (hfile : fs.find place = .file content) : fs.read p = .ok content := by
  unfold FileSystem.read
  simp only [h, bind, Except.bind, FileTree.find_eq_file.1 hfile]
  rfl

/-- A path that leads nowhere cannot be read. -/
theorem read_of_error {fault : FileFault} (h : fs.locate p = .error fault) :
    fs.read p = .error fault := by
  rw [FileSystem.read, h]
  rfl

/-- **A source can be read** unless its path is too long. -/
theorem read_source {root : List String} {n : CommandLine.SourceName}
    (hdir : fs.locate dir = .ok root) (htree : fs.tree.get? root = some tree)
    (hsource : CommandLine.IsSource dir tree n p) :
    (∃ content, fs.read p = .ok content) ∨ fs.read p = .error .nameTooLong := by
  rcases locate_source hdir htree hsource with ⟨hlocate, content, hfile⟩ | herror
  · exact .inl ⟨content, read_of_locate hlocate hfile⟩
  · exact .inr (read_of_error herror)

/-- **In a file system that has grown a source reads as before**, if its file is as before. -/
theorem Extends.read_source (h : fs.Extends fs') {root : List String} {n : CommandLine.SourceName}
    (hdir : fs.locate dir = .ok root) (htree : fs.tree.get? root = some tree)
    (hsource : CommandLine.IsSource dir tree n p)
    (hsame : fs'.contents (fs.destination p) = fs.contents (fs.destination p)) :
    fs'.read p = fs.read p := by
  have hstart : fs'.start p = fs.start p := by
    rw [FileSystem.start, h.workingDirectory, FileSystem.start]
  rcases locate_source hdir htree hsource with ⟨hlocate, content, hfile⟩ | herror
  · have hlocate' : fs'.locate p = .ok (fs.destination p) := by
      rw [FileSystem.locate, hstart]
      rw [FileSystem.locate] at hlocate
      obtain ⟨start, hs, hwalk⟩ := Fallible.bind_eq_ok.1 hlocate
      rw [hs]
      exact h.foldlM_step (.inl ⟨_, rfl⟩) hwalk
    have hfile' : fs'.find (fs.destination p) = .file content := by
      rw [contents_eq_some.2 hfile] at hsame
      exact contents_eq_some.1 hsame
    rw [read_of_locate hlocate hfile, read_of_locate hlocate' hfile']
  · have herror' : fs'.locate p = .error .nameTooLong := by
      rw [FileSystem.locate, hstart]
      rw [FileSystem.locate] at herror
      cases hs : fs.start p with
      | error fault =>
        rw [hs] at herror
        exact herror
      | ok start =>
        rw [hs] at herror
        exact h.foldlM_step (.inr rfl) herror
    rw [read_of_error herror, read_of_error herror']

end FileSystem

end JackCompiler
