import JackCompiler.Proofs.RunEffect
/-!
# The files that a run changes

From outside, a run is seen by the files that are new or changed in the working directory
(`FileTree.changes`). These are its codes: a file is among them exactly if the code of a source was
written there and the file was not already the same (`runOn_changes`). That a list of files tells
what stands at each location rests on directories that list each name once (`FileTree.Distinct`),
which every operation on files keeps.
-/

namespace JackCompiler

/-! ## The files of a tree -/

namespace FileTree

variable {α : Type} {t u : FileTree α} {entries : List (String × FileTree α)}
  {place : List String} {name : String} {content : α}

mutual

/-- Every directory lists each name once. -/
def Distinct : FileTree α → Prop
  | .file _ => True
  | .directory entries => EntriesDistinct entries

/-- The entries list each name once, and so do those below them. -/
def EntriesDistinct : List (String × FileTree α) → Prop
  | [] => True
  | (name, t) :: rest => name ∉ rest.map Prod.fst ∧ t.Distinct ∧ EntriesDistinct rest

end

mutual

/-- **The files of a tree are those that one finds in it.** -/
theorem mem_filesFrom (place : List String) (t : FileTree α) (ht : t.Distinct)
    (q : List String) (content : α) :
    (q, content) ∈ t.filesFrom place ↔
      ∃ rest, q = place.reverse ++ rest ∧ t.find rest = .file content := by
  cases t with
  | directory entries => exact mem_filesOf place entries ht q content
  | file old =>
    simp only [filesFrom, List.mem_singleton, Prod.mk.injEq]
    constructor
    · rintro ⟨rfl, rfl⟩
      exact ⟨[], (List.append_nil _).symm, rfl⟩
    · rintro ⟨rest, rfl, hfind⟩
      cases rest with
      | nil =>
        cases hfind
        exact ⟨List.append_nil _, rfl⟩
      | cons name rest => cases hfind

/-- The files below the entries of a directory are those that one finds in it. -/
theorem mem_filesOf (place : List String) (entries : List (String × FileTree α))
    (hentries : EntriesDistinct entries) (q : List String) (content : α) :
    (q, content) ∈ filesOf place entries ↔
      ∃ rest, q = place.reverse ++ rest ∧
        (FileTree.directory entries).find rest = .file content := by
  match entries, hentries with
  | [], _ =>
    simp only [filesOf, List.not_mem_nil, false_iff]
    rintro ⟨rest, -, hfind⟩
    cases rest <;> cases hfind
  | (name, t) :: entries, ⟨hnew, ht, hrest⟩ =>
    rw [filesOf, List.mem_append, mem_filesFrom (name :: place) t ht,
      mem_filesOf place entries hrest]
    constructor
    · rintro (⟨rest, rfl, hfind⟩ | ⟨rest, rfl, hfind⟩)
      · exact ⟨name :: rest, by simp, find_cons_self.trans hfind⟩
      · exact ⟨rest, rfl, find_cons_of_file hnew hfind⟩
    · rintro ⟨rest, rfl, hfind⟩
      cases rest with
      | nil => cases hfind
      | cons first rest =>
        by_cases hfirst : first = name
        · subst hfirst
          exact .inl ⟨rest, by simp, find_cons_self.symm.trans hfind⟩
        · exact .inr ⟨first :: rest, rfl, (find_cons_of_ne hfirst).symm.trans hfind⟩

end

/-- The list of the files tells what stands at each location. -/
theorem mem_files (ht : t.Distinct) :
    (place, content) ∈ t.files ↔ t.find place = .file content := by
  rw [files, mem_filesFrom [] t ht]
  simp

/-- **A file has changed** if it is found now and was not found before. -/
theorem mem_changes [DecidableEq α] (hu : u.Distinct) :
    (place, content) ∈ t.changes u ↔
      u.find place = .file content ∧ t.find place ≠ .file content := by
  rw [changes, List.mem_filter, mem_files hu, Ne, find_eq_file (t := t)]
  refine and_congr_right fun _ => ?_
  cases hold : t.get? place with
  | none => simp [hold]
  | some old => cases old <;> simp [hold]

/-! ## Trees stay distinct -/

/-- An entry of a distinct directory is distinct. -/
theorem EntriesDistinct.of_lookup (h : EntriesDistinct entries)
    (ht : entries.lookup name = some t) : t.Distinct := by
  induction entries with
  | nil => cases ht
  | cons entry entries ih =>
    obtain ⟨other, u⟩ := entry
    obtain ⟨-, hu, hrest⟩ := h
    by_cases hname : name = other
    · subst hname
      rw [List.lookup_cons_self] at ht
      cases ht
      exact hu
    · rw [List.lookup_cons, beq_false_of_ne hname] at ht
      exact ih hrest ht

/-- What stands in a tree is as distinct as the tree. -/
theorem Distinct.get? (ht : t.Distinct) (h : t.get? place = some u) : u.Distinct := by
  induction place generalizing t with
  | nil =>
    cases h
    exact ht
  | cons name place ih =>
    cases t with
    | file content => cases h
    | directory entries =>
      obtain ⟨child, hchild, hu⟩ := Option.bind_eq_some_iff.1 h
      exact ih (EntriesDistinct.of_lookup ht hchild) hu

/-- Setting an entry adds at most its name. -/
theorem mem_map_setEntry {other : String} :
    other ∈ (setEntry name t entries).map Prod.fst ↔
      other = name ∨ other ∈ entries.map Prod.fst := by
  induction entries with
  | nil => simp [setEntry]
  | cons entry entries ih =>
    obtain ⟨n, u⟩ := entry
    by_cases hn : n = name
    · subst hn
      simp [setEntry]
    · simp only [setEntry, if_neg hn, List.map_cons, List.mem_cons, ih]
      exact or_left_comm

/-- An entry that is set takes the place of the one with its name. -/
theorem EntriesDistinct.setEntry (h : EntriesDistinct entries) (ht : t.Distinct) :
    EntriesDistinct (setEntry name t entries) := by
  induction entries with
  | nil => exact ⟨by simp, ht, trivial⟩
  | cons entry entries ih =>
    obtain ⟨n, u⟩ := entry
    obtain ⟨hnew, hu, hrest⟩ := h
    by_cases hn : n = name
    · rw [FileTree.setEntry, if_pos hn]
      exact ⟨hnew, ht, hrest⟩
    · rw [FileTree.setEntry, if_neg hn]
      refine ⟨?_, hu, ih hrest⟩
      rw [mem_map_setEntry, not_or]
      exact ⟨hn, hnew⟩

/-- **A tree in which something distinct is set stays distinct.** -/
theorem Distinct.set (ht : t.Distinct) (hu : u.Distinct) : (t.set place u).Distinct := by
  induction place generalizing t with
  | nil => exact hu
  | cons name place ih =>
    -- a file gives way to a directory, which then has this entry alone
    obtain ⟨entries, hentries, hset⟩ : ∃ entries : List (String × FileTree α),
        EntriesDistinct entries ∧ t.set (name :: place) u = .directory
          (FileTree.setEntry name (((entries.lookup name).getD empty).set place u) entries) := by
      cases t with
      | file content => exact ⟨[], trivial, rfl⟩
      | directory entries => exact ⟨entries, ht, rfl⟩
    rw [hset]
    refine EntriesDistinct.setEntry hentries (ih ?_)
    cases hlookup : entries.lookup name with
    | none => exact trivial
    | some child => exact hentries.of_lookup hlookup

end FileTree

/-! ## The working directory -/

namespace FileSystem

variable {α : Type} {fs fs' : FileSystem α} {place : List String} {p : Path} {content : α}

/-- The working directory is as distinct as the tree. -/
theorem distinct_workingTree (h : fs.tree.Distinct) : fs.workingTree.Distinct := by
  unfold workingTree
  cases hget : fs.tree.get? fs.workingDirectory with
  | none => exact trivial
  | some t => exact h.get? hget

/-- The files of the working directory are those of the file system that stand there. -/
theorem find_workingTree_eq_file :
    fs.workingTree.find place = .file content ↔
      fs.contents (fs.workingDirectory ++ place) = some content := by
  rw [contents_eq_some, find, FileTree.find_eq_file, FileTree.find_eq_file, FileTree.get?_append,
    workingTree]
  cases fs.tree.get? fs.workingDirectory with
  | some t => rfl
  | none => cases place <;> simp [FileTree.empty, FileTree.get?]

/-- A file of the working directory has changed if it has a content that it did not have before. -/
theorem mem_changes_workingTree [DecidableEq α] (h : fs'.tree.Distinct)
    (hdir : fs'.workingDirectory = fs.workingDirectory) :
    (place, content) ∈ fs.workingTree.changes fs'.workingTree ↔
      fs'.contents (fs.workingDirectory ++ place) = some content ∧
        fs.contents (fs.workingDirectory ++ place) ≠ some content := by
  rw [FileTree.mem_changes (distinct_workingTree h), Ne, find_workingTree_eq_file,
    find_workingTree_eq_file, hdir]

/-- A file that is read stands where its path leads. -/
theorem contents_of_read (hread : fs.read p = .ok content) (hplace : fs.locate p = .ok place) :
    fs.contents place = some content := by
  rw [contents_eq_some, find, FileTree.find_eq_file]
  unfold read at hread
  rw [hplace] at hread
  simp only [bind, Except.bind] at hread
  split at hread
  · next old hget =>
    cases hread
    exact hget
  · cases hread
  · cases hread

/-- Writing a file keeps directories distinct. -/
theorem distinct_write (h : fs.tree.Distinct) (hw : fs.write p content = .ok fs') :
    fs'.tree.Distinct := by
  obtain ⟨place, -, -, rfl⟩ := write_eq_ok.1 hw
  exact h.set trivial

/-- So does making a directory. -/
theorem distinct_makeDirectory (h : fs.tree.Distinct) (hm : fs.makeDirectory p = .ok fs') :
    fs'.tree.Distinct := by
  obtain ⟨place, -, -, rfl⟩ := makeDirectory_eq_ok.1 hm
  exact h.set trivial

/-- So does trying to make one, whatever comes of it. -/
theorem distinct_settle (h : fs.tree.Distinct) :
    (makeDirectories.settle fs p (fs.makeDirectory p)).2.tree.Distinct := by
  cases hm : fs.makeDirectory p with
  | ok fs' => exact distinct_makeDirectory h hm
  | error fault =>
    rw [settle_error_snd]
    exact h

/-- **Making directories keeps them distinct**, whether all could be made or not. -/
theorem distinct_makeDirectories (h : fs.tree.Distinct) (paths : List Path) :
    (fs.makeDirectories paths).2.tree.Distinct := by
  induction paths with
  | nil => exact h
  | cons p above ih =>
    by_cases hm : fs.makeDirectory p = .error .notFound
    · cases habove : fs.makeDirectories above with
      | mk result fs' =>
        rw [habove] at ih
        cases result with
        | error fault =>
          rw [makeDirectories_cons_of_error hm habove]
          exact ih
        | ok _ =>
          rw [makeDirectories_cons_of_ok hm habove]
          exact distinct_settle ih
    · rw [makeDirectories_cons_of_ne above hm]
      exact distinct_settle h

/-- **Storing a file keeps directories distinct**, whether it succeeds or not. -/
theorem distinct_store (h : fs.tree.Distinct) (p : Path) (content : α) :
    (fs.store p content).2.tree.Distinct := by
  have habove : (fs.makeAbove p).2.tree.Distinct := by
    unfold makeAbove
    split
    · split
      · exact h
      · exact distinct_makeDirectories h _
    · exact h
  unfold store
  split
  · next heq =>
    rw [heq] at habove
    exact habove
  · next fs₁ heq =>
    rw [heq] at habove
    unfold put
    split
    · next hw => exact distinct_write habove hw
    · exact habove

end FileSystem

/-! ## Runs -/

namespace CommandLine

variable {options : Options} {before after : FileSystem ByteArray} {tree : FileTree ByteArray}
  {sources : List Path} {codes : List (Option Code)} {place : List String} {content : ByteArray}

/-- One more source keeps directories distinct. -/
theorem distinct_compileNextEffect {now : (Nat × Labels) × FileSystem ByteArray}
    (h : now.2.tree.Distinct) (p : Path) :
    (compileNextEffect options now p).2.tree.Distinct := by
  unfold compileNextEffect compileFileEffect
  dsimp only
  split
  · exact h
  · split
    · exact h
    · exact FileSystem.distinct_store h _ _

/-- All sources together keep them distinct. -/
theorem distinct_foldl {now : (Nat × Labels) × FileSystem ByteArray} (h : now.2.tree.Distinct)
    (sources : List Path) :
    (sources.foldl (compileNextEffect options) now).2.tree.Distinct := by
  induction sources generalizing now with
  | nil => exact h
  | cons p sources ih => exact ih (distinct_compileNextEffect h p)

/-- What has changed is what was written and was not there before. -/
theorem Leaves.mem_changes [DecidableEq ByteArray]
    (h : Leaves options before after sources codes) (hafter : after.tree.Distinct) :
    (place, content) ∈ before.workingTree.changes after.workingTree ↔
      before.contents (before.workingDirectory ++ place) ≠ some content ∧
        ∃ p code, (p, some code) ∈ sources.zip codes ∧ content = code.text.toUTF8 ∧
          after.locate (options.codePath p) = .ok (before.workingDirectory ++ place) := by
  rw [FileSystem.mem_changes_workingTree hafter h.workingDirectory]
  constructor
  · rintro ⟨hnew, hold⟩
    refine ⟨hold, ?_⟩
    -- a file that no code was written to is as before
    by_contra hnone
    refine hold ((h.kept _ fun p code hmem hplace => hnone ⟨p, code, hmem, ?_, hplace⟩).symm.trans
      hnew)
    have hcode := FileSystem.contents_of_read (h.written p code hmem) hplace
    exact Option.some.inj (hnew.symm.trans hcode)
  · rintro ⟨hold, p, code, hmem, rfl, hplace⟩
    exact ⟨FileSystem.contents_of_read (h.written p code hmem) hplace, hold⟩

/-- **The files that a run changes are the codes of the sources that succeed.** A file of the
working directory is new or changed exactly if the code of a source was written there, and it is
that code, and the file did not already hold it. -/
theorem runOn_changes [DecidableEq ByteArray] {args : List String}
    (hargs : Options.ofArguments? args = some options) (hset : Setting options before tree)
    (hbefore : before.tree.Distinct) :
    let after := (runOn args before).2.files
    let sources := options.sources before
    let codes := (deliverAll options before ⟨before.contents, {}⟩ sources).1
    (place, content) ∈ before.workingTree.changes after.workingTree ↔
      before.contents (before.workingDirectory ++ place) ≠ some content ∧
        ∃ p code, (p, some code) ∈ sources.zip codes ∧ content = code.text.toUTF8 ∧
          after.locate (options.codePath p) = .ok (before.workingDirectory ++ place) := by
  intro after sources codes
  have hfiles : after = (sources.foldl (compileNextEffect options) ((0, {}), before)).2 :=
    (runOn_eq hargs before).2
  have hleaves : Leaves options before after sources codes := by
    rw [hfiles]
    exact (hset.foldl hset.collected).2
  refine hleaves.mem_changes ?_
  rw [hfiles]
  exact distinct_foldl hbefore sources

end CommandLine

end JackCompiler
