import JackCompiler.Proofs.Files.Walk
/-!
# Making directories and writing files

Making a directory or writing a file is a change at one location (`FileSystem.Changes`), the one
that the path names by its pieces. Making a directory with those above it makes directories of the
places that the path visits and changes nothing else, also if it fails on the way
(`FileSystem.Grows`); it succeeds if no file is in the way.
-/

namespace JackCompiler

namespace FileSystem

open JackCompiler.Path (isProper)

variable {α : Type} {fs fs' fs'' : FileSystem α} {lead : Path.Lead} {pieces : List String}
  {piece : String} {place : List String}

/-- There is a directory from which relative paths start. -/
def Grounded (fs : FileSystem α) : Prop :=
  fs.find fs.workingDirectory = .directory

/-- Every path starts at a directory. -/
theorem Grounded.origin (h : fs.Grounded) (lead : Path.Lead) :
    fs.find (fs.origin lead) = .directory := by
  unfold FileSystem.origin
  split
  · by_cases hwd : fs.workingDirectory = []
    · rw [Grounded, hwd] at h
      exact h
    · have hthere : fs.tree.find ([] ++ fs.workingDirectory) ≠ .nothing := by
        rw [List.nil_append]
        intro hnothing
        rw [Grounded, find, hnothing] at h
        cases h
      exact FileTree.find_of_find_append hwd hthere
  · exact h

/-- The last piece of a path leads on from where the others lead. -/
theorem destination_concat :
    fs.destination ⟨lead, pieces ++ [piece]⟩
      = walk (pieces.foldl walk (fs.origin lead)) piece := by
  simp [destination]

/-- A path passes only directories if it does so before its last piece and ends at one. -/
theorem passes_concat {start : List String} :
    fs.Passes start (pieces ++ [piece]) ↔
      fs.Passes start pieces ∧
        fs.find (walk (pieces.foldl walk start) piece) = .directory := by
  simp [Passes, visits_concat, or_imp, forall_and]

/-- What is before the last piece of a path is no longer than the path. -/
theorem isTooLong_of_concat (h : isTooLong ⟨lead, pieces ++ [piece]⟩ = false) :
    isTooLong ⟨lead, pieces⟩ = false := by
  have hle := (Path.utf8ByteSize_text_concat lead pieces piece).1
  simp only [isTooLong, decide_eq_false_iff_not] at h ⊢
  omega

/-! ## One change -/

/-- At one location there is something else, and all else is as it was. -/
structure Changes (fs fs' : FileSystem α) (place : List String) (finding : FileTree.Finding α) :
    Prop where
  workingDirectory : fs'.workingDirectory = fs.workingDirectory
  find : ∀ q, fs'.find q = if q = place then finding else fs.find q

/-- At the place of a change one finds what was put there. -/
theorem Changes.find_self {finding : FileTree.Finding α} (h : fs.Changes fs' place finding) :
    fs'.find place = finding := by
  rw [h.find, if_pos rfl]

/-- Elsewhere one finds what was there. -/
theorem Changes.find_of_ne {finding : FileTree.Finding α} {q : List String}
    (h : fs.Changes fs' place finding) (hq : q ≠ place) : fs'.find q = fs.find q := by
  rw [h.find, if_neg hq]

/-- What has nothing in it and takes the place of nothing or of a file is one change. -/
theorem changes_set {name : String} {u : FileTree α}
    (hu : ∀ name rest, u.find (name :: rest) = .nothing) (hdir : fs.find place = .directory)
    (hold : fs.find (place ++ [name]) ≠ .directory) :
    fs.Changes { fs with tree := fs.tree.set (place ++ [name]) u } (place ++ [name]) u.finding where
  workingDirectory := rfl
  find q := FileTree.find_set hu hold (.inr (by rwa [List.dropLast_concat])) q

/-- The directory of a path is there, and neither the path nor a piece of it is too long. -/
structure Admits (fs : FileSystem α) (lead : Path.Lead) (pieces : List String) (piece : String) :
    Prop where
  short : isTooLong ⟨lead, pieces ++ [piece]⟩ = false
  sizes : ∀ p ∈ pieces ++ [piece], p.utf8ByteSize ≤ nameLimit
  passes : fs.Passes (fs.origin lead) pieces

/-- Something new is put under the last name, where the other pieces lead. -/
theorem locateNew_concat_name (hproper : isProper piece) (hup : piece ≠ "..") :
    fs.locateNew ⟨lead, pieces ++ [piece]⟩ = (do
      fs.entry (← pieces.foldlM fs.step (← fs.start ⟨lead, pieces ++ [piece]⟩)) piece) := by
  unfold locateNew
  simp only [Path.fileName?_concat hproper hup, Path.trimEnd_concat hproper, List.dropLast_concat]

/-- A path that ends in `..` names nothing new: it leads to what is there. -/
theorem locateNew_concat_up :
    fs.locateNew ⟨lead, pieces ++ [".."]⟩ = fs.locate ⟨lead, pieces ++ [".."]⟩ := by
  unfold locateNew
  simp only [Path.fileName?_up]

/-- **Something new is put at the destination of its path**, if the path admits it. -/
theorem locateNew_eq_ok (hproper : isProper piece) (hup : piece ≠ "..") :
    fs.locateNew ⟨lead, pieces ++ [piece]⟩ = .ok place ↔
      fs.Admits lead pieces piece ∧ place = fs.destination ⟨lead, pieces ++ [piece]⟩ := by
  rw [locateNew_concat_name hproper hup, Fallible.bind_eq_ok, destination_concat,
    walk_name hproper hup]
  simp only [Fallible.bind_eq_ok, start_eq_ok, foldlM_step_eq_ok, entry_eq_ok]
  constructor
  · rintro ⟨_, ⟨hshort, -, rfl⟩, _, ⟨hfollows, rfl⟩, hdir, hsize, rfl⟩
    refine ⟨⟨hshort, ?_, hfollows.passes hdir⟩, rfl⟩
    simpa [or_imp, forall_and, hsize] using hfollows.size_le
  · rintro ⟨h, rfl⟩
    have hne : piece ≠ "" := (Path.isProper_iff.1 hproper).1
    have hfollows := h.passes.follows fun p hp => h.sizes p (by simp [hp])
    exact ⟨_, ⟨h.short, Path.text_concat_ne_empty hne, rfl⟩, _, ⟨hfollows, rfl⟩,
      h.passes _ (visits_end _ _), h.sizes piece (by simp), rfl⟩

/-- Where a path ends in `..`, there is a directory already. -/
theorem find_of_locateNew_up (h : fs.locateNew ⟨lead, pieces ++ [".."]⟩ = .ok place) :
    fs.find place = .directory := by
  rw [locateNew_concat_up, locate_eq_ok, destination_concat, walk_up] at h
  obtain ⟨-, -, hfollows, rfl⟩ := h
  exact find_dropLast (hfollows.passes_of_concat _ (visits_end _ _))

/-- A path that admits something new leads to the directory at its end, if one is there. -/
theorem Admits.locate (h : fs.Admits lead pieces piece) (hproper : isProper piece)
    (hdir : fs.find (fs.destination ⟨lead, pieces ++ [piece]⟩) = .directory) :
    fs.locate ⟨lead, pieces ++ [piece]⟩ = .ok (fs.destination ⟨lead, pieces ++ [piece]⟩) := by
  rw [destination_concat] at hdir
  exact locate_eq_ok.2 ⟨h.short, Path.text_concat_ne_empty (Path.isProper_iff.1 hproper).1,
    (passes_concat.2 ⟨h.passes, hdir⟩).follows h.sizes, rfl⟩

/-- A path that admits something new names a place for it. -/
theorem Admits.locateNew (h : fs.Admits lead pieces piece) (hproper : isProper piece) :
    fs.locateNew ⟨lead, pieces ++ [piece]⟩ = .ok (fs.destination ⟨lead, pieces ++ [piece]⟩) := by
  by_cases hup : piece = ".."
  · subst hup
    have hdir : fs.find (fs.destination ⟨lead, pieces ++ [".."]⟩) = .directory := by
      rw [destination_concat, walk_up]
      exact find_dropLast (h.passes _ (visits_end _ _))
    rw [locateNew_concat_up]
    exact h.locate hproper hdir
  · exact (locateNew_eq_ok hproper hup).2 ⟨h, rfl⟩

/-! ## Writing -/

/-- A file is written where no directory is. -/
theorem write_eq_ok {p : Path} {content : α} :
    fs.write p content = .ok fs' ↔
      ∃ place, fs.locateNew p = .ok place ∧ fs.find place ≠ .directory ∧
        fs' = { fs with tree := fs.tree.set place (.file content) } := by
  unfold write
  rw [Fallible.bind_eq_ok]
  refine exists_congr fun place => and_congr_right fun _ => ?_
  unfold find FileTree.find
  rcases fs.tree.get? place with _ | _ | _ <;>
    simp [FileTree.finding, throw, throwThe, MonadExceptOf.throw, pure, Except.pure, eq_comm]

/-- **A file is written** to a path whose directory is there, unless a directory has its name. -/
theorem exists_write_eq_ok {content : α} (hproper : isProper piece) :
    (∃ fs', fs.write ⟨lead, pieces ++ [piece]⟩ content = .ok fs') ↔
      piece ≠ ".." ∧ fs.Admits lead pieces piece ∧
        fs.find (fs.destination ⟨lead, pieces ++ [piece]⟩) ≠ .directory := by
  simp only [write_eq_ok]
  by_cases hup : piece = ".."
  · subst hup
    refine ⟨?_, fun h => absurd rfl h.1⟩
    rintro ⟨_, place, hplace, hfree, -⟩
    exact absurd (find_of_locateNew_up hplace) hfree
  · constructor
    · rintro ⟨_, place, hplace, hfree, -⟩
      obtain ⟨hadmits, rfl⟩ := (locateNew_eq_ok hproper hup).1 hplace
      exact ⟨hup, hadmits, hfree⟩
    · rintro ⟨-, hadmits, hfree⟩
      exact ⟨_, _, hadmits.locateNew hproper, hfree, rfl⟩

/-- Writing a file changes its own place alone. -/
theorem changes_write {content : α} (hproper : isProper piece)
    (h : fs.write ⟨lead, pieces ++ [piece]⟩ content = .ok fs') :
    fs.Changes fs' (fs.destination ⟨lead, pieces ++ [piece]⟩) (.file content) := by
  obtain ⟨hup, hadmits, hfree⟩ := (exists_write_eq_ok hproper).1 ⟨fs', h⟩
  obtain ⟨place, hplace, -, rfl⟩ := write_eq_ok.1 h
  obtain rfl : fs.destination ⟨lead, pieces ++ [piece]⟩ = place :=
    Except.ok.inj ((hadmits.locateNew hproper).symm.trans hplace)
  rw [destination_concat, walk_name hproper hup] at hfree ⊢
  exact changes_set (fun _ _ => rfl) (hadmits.passes _ (visits_end _ _)) hfree

/-! ## Making one directory -/

/-- A directory is made at the place that its path names, if nothing is there. -/
theorem makeDirectory_eq_ok {p : Path} :
    fs.makeDirectory p = .ok fs' ↔
      ∃ place, fs.locateNew p = .ok place ∧ fs.find place = .nothing ∧
        fs' = { fs with tree := fs.tree.set place .empty } := by
  unfold makeDirectory
  rw [Fallible.bind_eq_ok]
  refine exists_congr fun place => and_congr_right fun _ => ?_
  rw [find, FileTree.find_eq_nothing]
  cases fs.tree.get? place <;>
    simp [throw, throwThe, MonadExceptOf.throw, pure, Except.pure, eq_comm]

/-- A directory is not made twice. -/
theorem makeDirectory_of_directory {p : Path} (h : fs.locateNew p = .ok place)
    (hdir : fs.find place = .directory) : fs.makeDirectory p = .error .alreadyExists := by
  obtain ⟨entries, hentries⟩ := FileTree.find_eq_directory.1 hdir
  unfold makeDirectory
  simp only [h, bind, Except.bind, hentries]
  rfl

/-- Where nothing can be put, no directory is made. -/
theorem makeDirectory_of_error {p : Path} {fault : FileFault} (h : fs.locateNew p = .error fault) :
    fs.makeDirectory p = .error fault := by
  unfold makeDirectory
  rw [h]
  rfl

/-- A directory is made where there is nothing. -/
theorem changes_makeDirectory (hproper : isProper piece)
    (h : fs.makeDirectory ⟨lead, pieces ++ [piece]⟩ = .ok fs') :
    fs.find (fs.destination ⟨lead, pieces ++ [piece]⟩) = .nothing ∧
      fs.Changes fs' (fs.destination ⟨lead, pieces ++ [piece]⟩) .directory := by
  obtain ⟨place, hplace, hnothing, rfl⟩ := makeDirectory_eq_ok.1 h
  by_cases hup : piece = ".."
  · subst hup
    rw [find_of_locateNew_up hplace] at hnothing
    cases hnothing
  · obtain ⟨hadmits, rfl⟩ := (locateNew_eq_ok hproper hup).1 hplace
    refine ⟨hnothing, ?_⟩
    rw [destination_concat, walk_name hproper hup] at hnothing ⊢
    exact changes_set (fun _ _ => rfl) (hadmits.passes _ (visits_end _ _)) (by simp [hnothing])

/-- Where no file is in the way and the directory of the path is not there, it is missing. -/
theorem makeDirectory_notFound (hproper : isProper piece)
    (hclear : fs.Clear (fs.origin lead) (pieces ++ [piece]))
    (hsizes : ∀ p ∈ pieces ++ [piece], p.utf8ByteSize ≤ nameLimit)
    (hshort : isTooLong ⟨lead, pieces ++ [piece]⟩ = false)
    (hpasses : ¬ fs.Passes (fs.origin lead) pieces) :
    fs.makeDirectory ⟨lead, pieces ++ [piece]⟩ = .error .notFound := by
  have htext : Path.text ⟨lead, pieces ++ [piece]⟩ ≠ "" :=
    Path.text_concat_ne_empty (Path.isProper_iff.1 hproper).1
  have hstart : fs.start ⟨lead, pieces ++ [piece]⟩ = .ok (fs.origin lead) :=
    start_eq_ok.2 ⟨hshort, htext, rfl⟩
  apply makeDirectory_of_error
  by_cases hup : piece = ".."
  · -- a path that ends in `..` is followed to its end
    subst hup
    rw [locateNew_concat_up, FileSystem.locate, hstart]
    refine (hclear.foldlM_step hsizes).resolve_left fun hok => hpasses ?_
    exact (foldlM_step_eq_ok.1 hok).1.passes_of_concat
  · have hclear' := hclear.of_concat
    rw [locateNew_concat_name hproper hup, hstart]
    change (pieces.foldlM fs.step (fs.origin lead) >>= fun place => fs.entry place piece) = _
    rcases hclear'.foldlM_step fun p hp => hsizes p (by simp [hp]) with hok | herror
    · obtain ⟨hfollows, -⟩ := foldlM_step_eq_ok.1 hok
      rw [hok]
      change fs.entry _ _ = _
      rw [entry_eq]
      cases hlast : fs.find (pieces.foldl walk (fs.origin lead)) with
      | nothing => rfl
      | file content => exact absurd hlast (find_ne_file (hclear' _ (visits_end _ _)) content)
      | directory => exact absurd (hfollows.passes hlast) hpasses
    · rw [herror]
      rfl

/-! ## Making directories with those above them -/

/-- The later file system has directories at some of the places where the earlier one has nothing,
and is like it elsewhere. -/
structure Grows (fs fs' : FileSystem α) (places : List String → Prop) : Prop where
  workingDirectory : fs'.workingDirectory = fs.workingDirectory
  find : ∀ q, fs'.find q = fs.find q ∨
    fs.find q = .nothing ∧ fs'.find q = .directory ∧ places q

section Grows

variable {places places' : List String → Prop}

theorem Grows.refl (fs : FileSystem α) (places : List String → Prop) : fs.Grows fs places :=
  ⟨rfl, fun _ => .inl rfl⟩

/-- What grows at some places grows at more. -/
theorem Grows.mono (h : fs.Grows fs' places) (himp : ∀ q, places q → places' q) :
    fs.Grows fs' places' where
  workingDirectory := h.workingDirectory
  find q := (h.find q).imp_right fun ⟨hold, hnew, hq⟩ => ⟨hold, hnew, himp q hq⟩

/-- What grows twice grows. -/
theorem Grows.trans (h : fs.Grows fs' places) (h' : fs'.Grows fs'' places) :
    fs.Grows fs'' places where
  workingDirectory := h'.workingDirectory.trans h.workingDirectory
  find q := by
    rcases h'.find q with heq | ⟨hold, hnew, hq⟩
    · rw [heq]
      exact h.find q
    · rcases h.find q with heq | ⟨-, hdir, -⟩
      · exact .inr ⟨heq ▸ hold, hnew, hq⟩
      · rw [hdir] at hold
        cases hold

/-- A directory that is made where there was nothing is growth. -/
theorem Changes.grows (h : fs.Changes fs' place .directory) (hold : fs.find place = .nothing)
    (hplace : places place) : fs.Grows fs' places where
  workingDirectory := h.workingDirectory
  find q := by
    by_cases hq : q = place
    · subst hq
      exact .inr ⟨hold, h.find_self, hplace⟩
    · exact .inl (h.find_of_ne hq)

/-- No directory is lost. -/
theorem Grows.directory (h : fs.Grows fs' places) (hdir : fs.find place = .directory) :
    fs'.find place = .directory := by
  rcases h.find place with heq | ⟨-, hnew, -⟩
  · rw [heq, hdir]
  · exact hnew

/-- No file changes. -/
theorem Grows.contents (h : fs.Grows fs' places) : fs'.contents = fs.contents := by
  funext q
  rcases h.find q with heq | ⟨hold, hnew, -⟩
  · rw [FileSystem.contents, heq, FileSystem.contents]
  · rw [FileSystem.contents, hnew, FileSystem.contents, hold]

end Grows

/-- A directory that was not made changes nothing. -/
theorem settle_error_snd (p : Path) (fault : FileFault) :
    (makeDirectories.settle fs p (.error fault)).2 = fs := by
  rw [makeDirectories.settle]
  split <;> rfl

/-- Nothing is done above a directory unless something above it is missing. -/
theorem makeDirectories_cons_of_ne {p : Path} (above : List Path)
    (h : fs.makeDirectory p ≠ .error .notFound) :
    fs.makeDirectories (p :: above) = makeDirectories.settle fs p (fs.makeDirectory p) := by
  rw [makeDirectories]
  split
  · next heq => rw [heq, makeDirectories.settle]
  · next heq => exact absurd heq h
  · next heq => rw [heq]

/-- A directory cannot be made if those above it cannot. -/
theorem makeDirectories_cons_of_error {p : Path} {above : List Path} {fault : FileFault}
    (h : fs.makeDirectory p = .error .notFound)
    (habove : fs.makeDirectories above = (.error fault, fs')) :
    fs.makeDirectories (p :: above) = (.error fault, fs') := by
  simp only [makeDirectories, h, habove]

/-- A directory is made once those above it are there. -/
theorem makeDirectories_cons_of_ok {p : Path} {above : List Path}
    (h : fs.makeDirectory p = .error .notFound)
    (habove : fs.makeDirectories above = (.ok (), fs')) :
    fs.makeDirectories (p :: above) = makeDirectories.settle fs' p (fs'.makeDirectory p) := by
  simp only [makeDirectories, h, habove]

/-- The directory at which a path starts is there. -/
theorem makeDirectories_lead (hg : fs.Grounded) :
    fs.makeDirectories (Path.ancestors ⟨lead, []⟩) = (.ok (), fs) := by
  rw [Path.ancestors_eq]
  change fs.makeDirectories (if lead = .relative then [] else [⟨lead, []⟩]) = _
  split
  · rfl
  · next hlead =>
    have hlocate : fs.locate ⟨lead, []⟩ = .ok (fs.origin lead) := by
      refine locate_eq_ok.2 ⟨?_, ?_, Passes.follows ?_ (by simp), rfl⟩
      · cases lead with
        | root | current => decide
        | relative => exact absurd rfl hlead
      · cases lead with
        | root | current => decide
        | relative => exact absurd rfl hlead
      · intro q hq
        rw [visits_nil.1 hq]
        exact hg.origin lead
    have hmake : fs.makeDirectory ⟨lead, []⟩ = .error .alreadyExists :=
      makeDirectory_of_directory hlocate (hg.origin lead)
    obtain ⟨entries, hentries⟩ := FileTree.find_eq_directory.1 (hg.origin lead)
    have hthere : (fs.directoryAt? ⟨lead, []⟩).isSome := by
      simp [directoryAt?, hlocate, Except.toOption, hentries]
    rw [makeDirectories_cons_of_ne _ (by simp [hmake]), hmake, makeDirectories.settle,
      if_pos hthere]

/-- **Only directories are made, and only where the path passes**, whether it succeeds or not. -/
theorem grows_makeDirectories (hg : fs.Grounded) :
    fs.Grows (fs.makeDirectories (Path.ancestors ⟨lead, pieces⟩)).2
      (Visits (fs.origin lead) pieces) := by
  induction pieces using List.reverseRecOn with
  | nil =>
    rw [makeDirectories_lead hg]
    exact Grows.refl fs _
  | append_singleton pieces piece ih =>
    have ih := ih.mono fun q hq => Visits.mono hq (List.prefix_append pieces [piece])
    by_cases hproper : isProper piece
    · have hplace : Visits (fs.origin lead) (pieces ++ [piece])
          (fs.destination ⟨lead, pieces ++ [piece]⟩) := visits_end _ _
      rw [Path.ancestors_concat hproper]
      by_cases hmissing : fs.makeDirectory ⟨lead, pieces ++ [piece]⟩ = .error .notFound
      · -- those above it come first, then it is tried again
        rcases hmakes : fs.makeDirectories (Path.ancestors ⟨lead, pieces⟩) with ⟨fault | _, fs₁⟩
        · rw [hmakes] at ih
          rw [makeDirectories_cons_of_error hmissing hmakes]
          exact ih
        · rw [hmakes] at ih
          rw [makeDirectories_cons_of_ok hmissing hmakes]
          cases hmake : fs₁.makeDirectory ⟨lead, pieces ++ [piece]⟩ with
          | error fault =>
            rw [settle_error_snd]
            exact ih
          | ok fs₂ =>
            obtain ⟨hold, hchange⟩ := changes_makeDirectory hproper hmake
            rw [destination_congr ih.workingDirectory] at hold hchange
            rw [makeDirectories.settle]
            exact ih.trans (hchange.grows hold hplace)
      · rw [makeDirectories_cons_of_ne _ hmissing]
        cases hmake : fs.makeDirectory ⟨lead, pieces ++ [piece]⟩ with
        | error fault =>
          rw [settle_error_snd]
          exact Grows.refl fs _
        | ok fs₁ =>
          obtain ⟨hold, hchange⟩ := changes_makeDirectory hproper hmake
          exact hchange.grows hold hplace
    · rw [Path.ancestors_concat_of_not hproper]
      exact ih

/-- The later file system has directories at the places, and is like the earlier one elsewhere. -/
structure Made (fs fs' : FileSystem α) (places : List String → Prop) : Prop where
  workingDirectory : fs'.workingDirectory = fs.workingDirectory
  inside : ∀ q, places q → fs'.find q = .directory
  outside : ∀ q, ¬ places q → fs'.find q = fs.find q

/-- Where all directories are there, none is made. -/
theorem Passes.made (h : fs.Passes place pieces) : fs.Made fs (Visits place pieces) :=
  ⟨rfl, h, fun _ _ => rfl⟩

/-- One more directory at the end of the path. -/
theorem Made.concat {start : List String} (h : fs.Made fs' (Visits start pieces))
    (h' : fs'.Changes fs'' (walk (pieces.foldl walk start) piece) .directory) :
    fs.Made fs'' (Visits start (pieces ++ [piece])) where
  workingDirectory := h'.workingDirectory.trans h.workingDirectory
  inside q hq := by
    rcases visits_concat.1 hq with hq | rfl
    · rw [h'.find, h.inside q hq, ite_self]
    · exact h'.find_self
  outside q hq := by
    obtain ⟨hvisits, hne⟩ := not_or.1 (mt visits_concat.2 hq)
    rw [h'.find_of_ne hne, h.outside q hvisits]

/-- In a directory that is there, another is there or is made, unless a file has its name. -/
theorem Admits.settle (h : fs.Admits lead pieces piece) (hproper : isProper piece)
    (hfree : fs.contents (fs.destination ⟨lead, pieces ++ [piece]⟩) = none) :
    fs.makeDirectory ⟨lead, pieces ++ [piece]⟩ ≠ .error .notFound ∧
      ∃ fs', makeDirectories.settle fs ⟨lead, pieces ++ [piece]⟩
          (fs.makeDirectory ⟨lead, pieces ++ [piece]⟩) = (.ok (), fs') ∧
        fs.Changes fs' (fs.destination ⟨lead, pieces ++ [piece]⟩) .directory := by
  have hplace := h.locateNew hproper
  cases hfind : fs.find (fs.destination ⟨lead, pieces ++ [piece]⟩) with
  | file content => exact absurd hfind (find_ne_file hfree content)
  | nothing =>
    have hmake := makeDirectory_eq_ok.2 ⟨_, hplace, hfind, rfl⟩
    rw [hmake]
    exact ⟨by simp, _, rfl, (changes_makeDirectory hproper hmake).2⟩
  | directory =>
    obtain ⟨entries, hentries⟩ := FileTree.find_eq_directory.1 hfind
    have hthere : (fs.directoryAt? ⟨lead, pieces ++ [piece]⟩).isSome := by
      simp [directoryAt?, h.locate hproper hfind, Except.toOption, hentries]
    rw [makeDirectory_of_directory hplace hfind, makeDirectories.settle, if_pos hthere]
    refine ⟨by simp, fs, rfl, rfl, fun q => ?_⟩
    split
    · next hq => rw [hq, hfind]
    · rfl

/-- **Where no file is in the way, the directories are made**: then the places that the path visits
are directories. -/
theorem Clear.makeDirectories (hg : fs.Grounded) (hclear : fs.Clear (fs.origin lead) pieces)
    (hsizes : ∀ p ∈ pieces, p.utf8ByteSize ≤ nameLimit)
    (hshort : isTooLong ⟨lead, pieces⟩ = false) :
    ∃ fs', fs.makeDirectories (Path.ancestors ⟨lead, pieces⟩) = (.ok (), fs') ∧
      fs.Made fs' (Visits (fs.origin lead) pieces) := by
  induction pieces using List.reverseRecOn with
  | nil =>
    refine ⟨fs, makeDirectories_lead hg, Passes.made fun q hq => ?_⟩
    rw [visits_nil.1 hq]
    exact hg.origin lead
  | append_singleton pieces piece ih =>
    obtain ⟨fs₁, hmakes, hmade⟩ :=
      ih hclear.of_concat (fun p hp => hsizes p (by simp [hp])) (isTooLong_of_concat hshort)
    by_cases hproper : isProper piece
    · rw [Path.ancestors_concat hproper]
      have hend : fs.contents (fs.destination ⟨lead, pieces ++ [piece]⟩) = none :=
        hclear _ (visits_end _ _)
      by_cases hpasses : fs.Passes (fs.origin lead) pieces
      · -- the directories above are there, and only this one is made
        have hadmits : fs.Admits lead pieces piece := ⟨hshort, hsizes, hpasses⟩
        obtain ⟨hne, fs', hsettle, hchange⟩ := hadmits.settle hproper hend
        rw [destination_concat] at hchange
        rw [makeDirectories_cons_of_ne _ hne]
        exact ⟨fs', hsettle, hpasses.made.concat hchange⟩
      · -- one of them is missing, so they come first and it is tried again in `fs₁`
        have hmissing := makeDirectory_notFound hproper hclear hsizes hshort hpasses
        have hdestination : fs₁.destination ⟨lead, pieces ++ [piece]⟩
            = fs.destination ⟨lead, pieces ++ [piece]⟩ :=
          destination_congr hmade.workingDirectory _
        have hadmits : fs₁.Admits lead pieces piece :=
          ⟨hshort, hsizes, by rw [origin_congr hmade.workingDirectory]; exact hmade.inside⟩
        have hfree : fs₁.contents (fs₁.destination ⟨lead, pieces ++ [piece]⟩) = none := by
          rw [hdestination]
          -- the path may have come by its own end before, through `..`
          by_cases hvisits : Visits (fs.origin lead) pieces
              (fs.destination ⟨lead, pieces ++ [piece]⟩)
          · exact contents_of_directory (hmade.inside _ hvisits)
          · rw [FileSystem.contents, hmade.outside _ hvisits]
            exact hend
        obtain ⟨-, fs', hsettle, hchange⟩ := hadmits.settle hproper hfree
        rw [hdestination, destination_concat] at hchange
        rw [makeDirectories_cons_of_ok hmissing hmakes]
        exact ⟨fs', hsettle, hmade.concat hchange⟩
    · have hsame :
          Visits (fs.origin lead) (pieces ++ [piece]) = Visits (fs.origin lead) pieces := by
        funext q
        have hend := visits_end (fs.origin lead) pieces
        rw [visits_concat, walk_of_not_proper hproper, eq_iff_iff]
        exact or_iff_left_of_imp fun hq => hq ▸ hend
      rw [Path.ancestors_concat_of_not hproper, hsame]
      exact ⟨fs₁, hmakes, hmade⟩

end FileSystem

end JackCompiler
