import JackCompiler.Proofs.Files.Sources
/-!
# What is collected

The sources of a directory are all files below it that have the name of a source. They are collected
each once, strictly in the order of their paths, component by component. Members and order fix the
list, so it does not depend on the order in which the directories list their entries.

A run asks by its path whether something is a directory. A directory whose path is too long is
therefore taken for a file: what is in it is left out, and it becomes a source itself if it has the
name of one.
-/

namespace JackCompiler

/-! ## Listing orders -/

namespace FileTree

variable {α : Type} {entries entries' : List (String × FileTree α)}

/-- The same entries in another order, and so at any depth below them. -/
inductive Reordered : List (String × FileTree α) → List (String × FileTree α) → Prop
  /-- Nothing is listed. -/
  | nil : Reordered [] []
  /-- The same entry comes first. -/
  | cons (entry : String × FileTree α) {entries entries' : List (String × FileTree α)} :
      Reordered entries entries' → Reordered (entry :: entries) (entry :: entries')
  /-- The first two entries change places. -/
  | swap (first second : String × FileTree α) (entries : List (String × FileTree α)) :
      Reordered (first :: second :: entries) (second :: first :: entries)
  /-- The first entry is a directory that lists its own entries in another order. -/
  | inside (name : String) {entries entries' : List (String × FileTree α)}
      (rest : List (String × FileTree α)) : Reordered entries entries' →
      Reordered ((name, .directory entries) :: rest) ((name, .directory entries') :: rest)
  /-- One change after the other. -/
  | trans {entries entries' entries'' : List (String × FileTree α)} :
      Reordered entries entries' → Reordered entries' entries'' → Reordered entries entries''

namespace Reordered

theorem perm_names (h : Reordered entries entries') :
    (entries.map Prod.fst).Perm (entries'.map Prod.fst) := by
  induction h with
  | nil => exact .refl _
  | cons entry _ ih => exact ih.cons entry.1
  | swap first second entries => exact .swap second.1 first.1 _
  | inside name rest _ _ => exact .refl _
  | trans _ _ ih ih' => exact ih.trans ih'

theorem wellFormed (h : Reordered entries entries') (hwf : EntriesWellFormed entries) :
    EntriesWellFormed entries' := by
  induction h with
  | nil => exact hwf
  | cons entry h ih =>
    obtain ⟨hname, hnew, ht, hrest⟩ := hwf
    exact ⟨hname, fun hmem => hnew (h.perm_names.mem_iff.2 hmem), ht, ih hrest⟩
  | swap first second entries =>
    obtain ⟨hname, hnew, ht, hname', hnew', ht', hrest⟩ := hwf
    rw [List.map_cons, List.mem_cons, not_or] at hnew
    refine ⟨hname', ?_, ht', hname, hnew.2, ht, hrest⟩
    rw [List.map_cons, List.mem_cons, not_or]
    exact ⟨Ne.symm hnew.1, hnew'⟩
  | inside name rest _ ih =>
    obtain ⟨hname, hnew, ht, hrest⟩ := hwf
    exact ⟨hname, hnew, ih ht, hrest⟩
  | trans _ _ ih ih' => exact ih' (ih hwf)

/-- **The same is found at every place**, whatever the order. -/
theorem find_eq (h : Reordered entries entries') (hwf : EntriesWellFormed entries)
    (place : List String) :
    (FileTree.directory entries).find place = (FileTree.directory entries').find place := by
  induction h generalizing place with
  | nil => rfl
  | cons entry _ ih =>
    obtain ⟨name, t⟩ := entry
    obtain ⟨-, -, -, hrest⟩ := hwf
    cases place with
    | nil => rfl
    | cons first place =>
      by_cases hfirst : first = name
      · rw [hfirst, find_cons_self, find_cons_self]
      · rw [find_cons_of_ne hfirst, find_cons_of_ne hfirst, ih hrest]
  | swap first second entries =>
    obtain ⟨name, t⟩ := first
    obtain ⟨name', t'⟩ := second
    obtain ⟨-, hnew, -⟩ := hwf
    have hne : name ≠ name' := fun heq => hnew (by simp [heq])
    cases place with
    | nil => rfl
    | cons first place =>
      by_cases hfirst : first = name
      · rw [hfirst, find_cons_self, find_cons_of_ne hne, find_cons_self]
      · rw [find_cons_of_ne hfirst]
        by_cases hsecond : first = name'
        · rw [hsecond, find_cons_self, find_cons_self]
        · rw [find_cons_of_ne hsecond, find_cons_of_ne hsecond, find_cons_of_ne hfirst]
  | inside name rest _ ih =>
    obtain ⟨-, -, ht, -⟩ := hwf
    cases place with
    | nil => rfl
    | cons first place =>
      by_cases hfirst : first = name
      · rw [hfirst, find_cons_self, find_cons_self, ih ht]
      · rw [find_cons_of_ne hfirst, find_cons_of_ne hfirst]
  | trans h _ ih ih' => rw [ih hwf, ih' (h.wellFormed hwf)]

end Reordered

/-- A directory with only files in it holds no directory. -/
theorem eq_nil_of_find_files {place : List String}
    (hfiles : ∀ entry ∈ entries, ∃ content, entry.2 = .file content)
    (h : (FileTree.directory entries).find place = .directory) : place = [] := by
  cases place with
  | nil => rfl
  | cons first rest =>
    induction entries with
    | nil => cases h
    | cons entry entries ih =>
      obtain ⟨name, t⟩ := entry
      by_cases hfirst : first = name
      · obtain ⟨content, rfl⟩ := hfiles _ List.mem_cons_self
        rw [hfirst, find_cons_self] at h
        cases rest <;> cases h
      · rw [find_cons_of_ne hfirst] at h
        exact ih (fun entry hentry => hfiles entry (List.mem_cons_of_mem _ hentry)) h

end FileTree

namespace CommandLine

open FileSystem (isTooLong outline)
open FileTree (EntriesWellFormed Reordered)

variable {α : Type} {dir : Path} {entries entries' : List (String × FileTree α)}

/-! ## The list of sources -/

namespace SourceName

theorem join_place (s : String) (n : SourceName) :
    (Path.ofString s).join ⟨.relative, n.place⟩ = n.path (.ofString s) :=
  Path.join_ofString s n.place_ne_nil (fun name hname => (n.isName_place name hname).noSlash)
    (fun name hname => (n.isName_place name hname).proper)

/-- Sources with other paths differ in the components of their paths. -/
theorem path_eq_of_components {m n : SourceName}
    (h : (m.path dir).components = (n.path dir).components) : m.path dir = n.path dir := by
  have hplace := Path.append_inj_of_components
    (fun name hname => (m.isName_place name hname).proper)
    (fun name hname => (n.isName_place name hname).proper) h
  rw [path, path, hplace]

end SourceName

/-- The paths are those of the sources below a directory: of what is a file and has the name of a
source, at any depth, each of them once, strictly in order. -/
structure SourceList (dir : Path) (isFile : List String → Prop) (sources : List Path) : Prop where
  mem_iff : ∀ p, p ∈ sources ↔
    ∃ n : SourceName, p = dir.join ⟨.relative, n.place⟩ ∧ isFile n.place
  nodup : sources.Nodup
  sorted : sources.Pairwise fun p q => p.components < q.components

namespace SourceList

variable {isFile isFile' : List String → Prop} {sources sources' : List Path}

/-- **There is one list of the sources.** -/
theorem unique (h : SourceList dir isFile sources) (h' : SourceList dir isFile sources') :
    sources = sources' := by
  have hperm : sources.Perm sources' := by
    rw [List.perm_ext_iff_of_nodup h.nodup h'.nodup]
    intro p
    rw [h.mem_iff, h'.mem_iff]
  refine hperm.eq_of_pairwise ?_ h.sorted h'.sorted
  intro p q _ _ hlt hlt'
  exact absurd hlt' hlt.not_gt

theorem congr (h : SourceList dir isFile sources)
    (hsame : ∀ n : SourceName, isFile n.place ↔ isFile' n.place) :
    SourceList dir isFile' sources := by
  refine ⟨fun p => ?_, h.nodup, h.sorted⟩
  rw [h.mem_iff]
  simp only [hsame]

end SourceList

/-- **What is collected in a tree is the list of its sources.** -/
theorem sourceList_collect (s : String) (hwf : EntriesWellFormed entries) :
    SourceList (.ofString s)
      (fun place => ∃ content, (FileTree.directory entries).find place = .file content)
      (collect (.ofString s) (some (.directory entries))) := by
  have hdir := Path.spelled_ofString s
  have hnodup := nodup_collect hdir hwf
  refine ⟨fun p => ?_, hnodup, ?_⟩
  · rw [mem_collect hdir hwf]
    simp only [SourceName.join_place]
  · -- the sort puts equal components side by side, but no two sources have the same
    refine (pairwise_collect.and hnodup).imp_of_mem ?_
    rintro p q hp hq ⟨hle, hne⟩
    obtain ⟨m, rfl, -⟩ := (mem_collect hdir hwf).1 hp
    obtain ⟨n, rfl, -⟩ := (mem_collect hdir hwf).1 hq
    exact lt_of_le_of_ne hle (mt SourceName.path_eq_of_components hne)

/-! ## What a run collects -/

/-- **What a run collects in a directory is the list of what it sees as sources.** -/
theorem sourceList_outline (s : String) (hshort : isTooLong (.ofString s) = false)
    (hwf : EntriesWellFormed entries) :
    SourceList (.ofString s)
      (fun place => SeenAsFile (.ofString s) place ((FileTree.directory entries).find place))
      (collect (.ofString s) (some (outline (.ofString s) (.directory entries)))) := by
  have hdir := Path.spelled_ofString s
  rw [outline_directory hshort]
  refine (sourceList_collect s (wellFormed_outlineBelow (.ofString s) entries hwf)).congr
    fun n => ?_
  rw [← find_outlineBelow hdir (isTooLong_base hshort) n.place_ne_nil entries hwf]
  constructor
  · rintro ⟨content, hfile⟩
    exact hfile
  · intro hfile
    exact ⟨(), hfile⟩

/-- Where every directory can be searched, what a run sees as a source is a file. -/
theorem seenAsFile_place {tree : FileTree α} (n : SourceName)
    (hreach : ∀ place, tree.find place = .directory →
      isTooLong ⟨dir.lead, dir.base ++ place⟩ = false) :
    SeenAsFile dir n.place (tree.find n.place) ↔ ∃ content, tree.find n.place = .file content := by
  constructor
  · rintro ⟨-, hfile | ⟨hdirectory, hlong⟩⟩
    · exact hfile
    · rw [hreach n.place hdirectory] at hlong
      cases hlong
  · rintro ⟨content, hfile⟩
    have hholds : tree.find n.names = .directory := by
      refine FileTree.find_of_find_append (List.cons_ne_nil n.fileName []) ?_
      rw [← SourceName.place, hfile]
      simp
    refine ⟨?_, .inl ⟨content, hfile⟩⟩
    rw [SourceName.place, List.dropLast_concat]
    exact hreach n.names hholds

/-- **A run collects what it sees as the sources of a directory, each once and strictly in order.**
These are all the sources, and nothing else, if no directory below has a path that is too long. In
whatever order the directories list their entries, the list is the same. -/
theorem collect_outline (s : String) (hshort : isTooLong (.ofString s) = false)
    (hwf : EntriesWellFormed entries) (horder : Reordered entries entries') :
    SourceList (.ofString s)
        (fun place => SeenAsFile (.ofString s) place ((FileTree.directory entries).find place))
        (collect (.ofString s) (some (outline (.ofString s) (.directory entries)))) ∧
      ((∀ place, (FileTree.directory entries).find place = .directory →
          isTooLong ⟨(Path.ofString s).lead, (Path.ofString s).base ++ place⟩ = false) →
        SourceList (.ofString s)
          (fun place => ∃ content, (FileTree.directory entries).find place = .file content)
          (collect (.ofString s) (some (outline (.ofString s) (.directory entries))))) ∧
      collect (.ofString s) (some (outline (.ofString s) (.directory entries')))
        = collect (.ofString s) (some (outline (.ofString s) (.directory entries))) := by
  have hseen := sourceList_outline s hshort hwf
  refine ⟨hseen, fun hreach => hseen.congr fun n => seenAsFile_place n hreach, ?_⟩
  refine SourceList.unique ?_ hseen
  have hfind := horder.find_eq hwf
  simp only [hfind]
  exact sourceList_outline s hshort (horder.wellFormed hwf)

/-- A directory with a directory `X.jack` and a file `.jack`, in which `a.x.jack` comes behind
`a/b.jack`. -/
def shelf : List (String × FileTree Unit) :=
  [("X.jack", .directory [("Main.jack", .file ()), ("notes.txt", .file ())]),
    ("a", .directory [("b.jack", .file ())]), ("a.x.jack", .file ()), (".jack", .file ())]

/-- The same directory with another listing. -/
def shuffledShelf : List (String × FileTree Unit) :=
  [("a", .directory [("b.jack", .file ())]),
    ("X.jack", .directory [("notes.txt", .file ()), ("Main.jack", .file ())]),
    ("a.x.jack", .file ()), (".jack", .file ())]

/-- The shelf has two directories in it. -/
theorem mem_of_find_shelf {place : List String}
    (h : (FileTree.directory shelf).find place = .directory) :
    place ∈ [[], ["X.jack"], ["a"]] := by
  cases place with
  | nil => simp
  | cons first rest =>
    by_cases hx : first = "X.jack"
    · rw [hx, shelf, FileTree.find_cons_self] at h
      rw [hx, FileTree.eq_nil_of_find_files (by simp) h]
      simp
    · rw [shelf, FileTree.find_cons_of_ne hx] at h
      by_cases ha : first = "a"
      · rw [ha, FileTree.find_cons_self] at h
        rw [ha, FileTree.eq_nil_of_find_files (by simp) h]
        simp
      · rw [FileTree.find_cons_of_ne ha] at h
        cases FileTree.eq_nil_of_find_files (by simp) h

theorem collect_shuffledShelf :
    isTooLong (.ofString "lib/") = false ∧ EntriesWellFormed shelf ∧
      Reordered shelf shuffledShelf ∧
      SourceList (.ofString "lib/")
        (fun place => ∃ content, (FileTree.directory shelf).find place = .file content)
        (collect (.ofString "lib/") (some (outline (.ofString "lib/") (.directory shelf)))) ∧
      collect (.ofString "lib/") (some (outline (.ofString "lib/") (.directory shuffledShelf)))
        = ["lib/X.jack/Main.jack", "lib/a/b.jack", "lib/a.x.jack"].map Path.ofString := by
  have hshort : isTooLong (.ofString "lib/") = false := by decide +kernel
  have hwf : EntriesWellFormed shelf :=
    of_decide_eq_true (p := (FileTree.directory shelf).WellFormed) (by decide +kernel)
  have horder : Reordered shelf shuffledShelf :=
    .trans (.inside "X.jack" _ (.swap _ _ _)) (.swap _ _ _)
  have hreach : ∀ place ∈ [[], ["X.jack"], ["a"]],
      isTooLong ⟨(Path.ofString "lib/").lead, (Path.ofString "lib/").base ++ place⟩ = false := by
    decide +kernel
  obtain ⟨-, hlist, hsame⟩ := collect_outline "lib/" hshort hwf horder
  refine ⟨hshort, hwf, horder, hlist fun place h => hreach place (mem_of_find_shelf h),
    hsame.trans ?_⟩
  have hsources : sourcesIn (.ofString "lib/") (outline (.ofString "lib/") (.directory shelf))
      = ["lib/X.jack/Main.jack", "lib/a/b.jack", "lib/a.x.jack"].map Path.ofString := by
    decide +kernel
  rw [collect, List.mergeSort_of_pairwise, hsources]
  rw [hsources]
  decide +kernel

theorem isTooLong_name {s name : String} (hname : Path.IsName name)
    (h : FileSystem.pathLimit < s.utf8ByteSize + name.utf8ByteSize) :
    isTooLong ⟨(Path.ofString s).lead, (Path.ofString s).base ++ [name]⟩ = true := by
  have hrelative : (Path.ofString name).lead ≠ .root := by simp [Path.ofString_name hname]
  rw [← Path.join_name (Path.spelled_ofString s) hname, isTooLong, Path.join, if_neg hrelative]
  simp only [Path.text_ofString, String.utf8ByteSize_append, decide_eq_true_eq]
  omega

/-- A path of 4094 bytes. -/
def longInput : String :=
  "d" ++ String.ofList (List.replicate 4093 '/')

/-- Two directories, each with a source. -/
def longEntries : List (String × FileTree Unit) :=
  [("X.jack", .directory [("Main.jack", .file ())]), ("sub", .directory [("Main.jack", .file ())])]

theorem utf8ByteSize_longInput : longInput.utf8ByteSize = 4094 := by
  have hslashes : ∀ n, String.utf8Len (List.replicate n '/') = n := by
    intro n
    induction n with
    | zero => rfl
    | succ n ih =>
      rw [List.replicate_succ, String.utf8Len_cons, ih]
      rfl
  have hrest : (String.ofList (List.replicate 4093 '/')).utf8ByteSize = 4093 := by
    rw [String.utf8ByteSize_ofList, hslashes]
  rw [longInput, String.utf8ByteSize_append, hrest]
  decide

/-- Below a long path the directories are not searched, and one of them is taken for a source. -/
theorem collect_longEntries :
    isTooLong (.ofString longInput) = false ∧ EntriesWellFormed longEntries ∧
      (FileTree.directory longEntries).find ["X.jack"] = .directory ∧
      (Path.ofString longInput).join ⟨.relative, ["X.jack"]⟩ ∈
        collect (.ofString longInput)
          (some (outline (.ofString longInput) (.directory longEntries))) ∧
      (FileTree.directory longEntries).find ["sub", "Main.jack"] = .file () ∧
      (Path.ofString longInput).join ⟨.relative, ["sub", "Main.jack"]⟩ ∉
        collect (.ofString longInput)
          (some (outline (.ofString longInput) (.directory longEntries))) := by
  have hshort : isTooLong (.ofString longInput) = false := by
    rw [isTooLong, Path.text_ofString, utf8ByteSize_longInput]
    decide
  have hlong : ∀ name, Path.IsName name → 2 ≤ name.utf8ByteSize →
      isTooLong ⟨(Path.ofString longInput).lead, (Path.ofString longInput).base ++ [name]⟩
        = true := by
    intro name hname hsize
    refine isTooLong_name hname ?_
    rw [utf8ByteSize_longInput, FileSystem.pathLimit]
    omega
  have hwf : EntriesWellFormed longEntries :=
    of_decide_eq_true (p := (FileTree.directory longEntries).WellFormed) (by decide +kernel)
  have hlist := sourceList_outline longInput hshort hwf
  refine ⟨hshort, hwf, rfl, ?_, rfl, ?_⟩
  · obtain ⟨n, hplace⟩ : ∃ n : SourceName, n.place = ["X.jack"] :=
      ⟨⟨[], "X", by simp, by decide, by decide⟩, by decide⟩
    refine (hlist.mem_iff _).2 ⟨n, by rw [hplace], ?_⟩
    rw [hplace]
    have hdrop : ["X.jack"].dropLast = [] := rfl
    refine ⟨?_, .inr ⟨rfl, hlong "X.jack" (by decide) (by decide)⟩⟩
    rw [hdrop, List.append_nil]
    exact isTooLong_base hshort
  · intro hmem
    obtain ⟨n, hpath, hseen⟩ := (hlist.mem_iff _).1 hmem
    rw [n.join_place, Path.join_ofString longInput (by simp) (by decide) (by decide)] at hpath
    have hplace : ["sub", "Main.jack"] = n.place :=
      List.append_cancel_left (congrArg Path.pieces hpath)
    have hdrop : ["sub", "Main.jack"].dropLast = ["sub"] := rfl
    have hway := hseen.way
    rw [← hplace, hdrop, hlong "sub" (by decide) (by decide)] at hway
    cases hway

end CommandLine

end JackCompiler
