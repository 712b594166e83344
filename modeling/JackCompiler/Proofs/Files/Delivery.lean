import JackCompiler.Proofs.Files.CodePaths
import JackCompiler.Proofs.Files.Effects
/-!
# What becomes of the sources of a run

What becomes of a source is told by the files before the run, the labels, and the files that the
sources before it have left (`deliver`): a source that is no text, does not compile or whose code
cannot be stored leaves no file behind. The run follows this (`Tracks`), although its sources may
leave directories in the file system that were not there before.
-/

namespace JackCompiler

namespace CommandLine

open FileSystem (Visits)
open JackCompiler.Path (isProper codeName)

/-- Where a run stands: the files that there are, and the labels. -/
structure Progress where
  contents : List String → Option ByteArray
  labels : Labels := {}

/-- What becomes of a source, and where the run stands then. A source has code if it is a text that
compiles, with the labels that are left, and if its code can be stored; then the code is the one
file that changes. -/
def deliver (options : Options) (before : FileSystem ByteArray) (now : Progress) (p : Path) :
    Option Code × Progress :=
  match ({ files := before } : Session).readText p with
  | .error _ => (none, now)
  | .ok source =>
    match compile source now.labels with
    | .error _ labels => (none, { now with labels })
    | .ok code labels =>
      if before.Storable now.contents (options.codePath p) then
        let place := before.destination (options.codePath p)
        (some code, ⟨Function.update now.contents place (some code.text.toUTF8), labels⟩)
      else (none, { now with labels })

/-- What becomes of the sources, one after the other. -/
def deliverAll (options : Options) (before : FileSystem ByteArray) (now : Progress) :
    List Path → List (Option Code) × Progress
  | [] => ([], now)
  | p :: rest =>
    let first := deliver options before now p
    let others := deliverAll options before first.2 rest
    (first.1 :: others.1, others.2)

/-! ## The input -/

/-- Where the code of the sources goes. -/
def Options.codeDirectory (options : Options) : Path :=
  .ofString (options.output.getD options.input)

/-- The input of the run is a directory. -/
structure Setting (options : Options) (before : FileSystem ByteArray) (tree : FileTree ByteArray) :
    Prop where
  grounded : before.Grounded
  directory : before.directoryAt? (.ofString options.input) = some tree
  wellFormed : tree.WellFormed

variable {options : Options} {before fs fs' : FileSystem ByteArray} {tree : FileTree ByteArray}
  {now : Progress} {n : SourceName} {p : Path} {done : List (Path × Option Code)}
  {contents : List String → Option ByteArray} {code : Code}

/-- The path for the code of a source is that of its name, from the output directory. -/
theorem IsSource.codePath (hp : IsSource (.ofString options.input) tree n p) :
    options.codePath p = n.codePath options.codeDirectory := by
  rw [hp.1]
  exact target_path options.input options.output n

/-- The sources of a run are collected from its input. -/
theorem Setting.collected (h : Setting options before tree) :
    Collected (.ofString options.input) tree (options.sources before) := by
  obtain ⟨place, entries, hlocate, -, htree⟩ := FileSystem.directoryAt?_eq_some.1 h.directory
  have hshort := (FileSystem.locate_eq_ok.1 hlocate).1
  rw [Options.sources, h.directory, Option.map_some]
  exact CommandLine.collected (Path.spelled_ofString options.input) hshort htree h.wellFormed

/-! ## One source -/

/-- The file system of the run is at `contents` after the sources that are done: it has all its
directories of before, and others only on the way to their codes; it has files where it had files,
and the sources are as they were. -/
structure Tracks (options : Options) (before : FileSystem ByteArray)
    (done : List (Path × Option Code)) (contents : List String → Option ByteArray)
    (fs : FileSystem ByteArray) : Prop where
  workingDirectory : fs.workingDirectory = before.workingDirectory
  contents_eq : fs.contents = contents
  directory : ∀ q, before.find q = .directory → fs.find q = .directory
  made : ∀ q, fs.find q = .directory → before.find q = .directory ∨
    ∃ u ∈ done, Visits (before.origin (options.codePath u.1).lead)
      (options.codePath u.1).pieces.dropLast q
  file : ∀ q, before.contents q ≠ none → contents q ≠ none
  source : ∀ place (n : SourceName),
    contents (place ++ [n.fileName]) = before.contents (place ++ [n.fileName])
  reached : ∀ u ∈ done, u.2 ≠ none →
    fs.Passes (before.origin (options.codePath u.1).lead) (options.codePath u.1).pieces.dropLast

/-- At first nothing is done, and the files are as before. -/
theorem tracks_start (options : Options) (before : FileSystem ByteArray) :
    Tracks options before [] before.contents before where
  workingDirectory := rfl
  contents_eq := rfl
  directory _ h := h
  made _ h := .inl h
  file _ h := h
  source _ _ := rfl
  reached _ h := by cases h

namespace Tracks

/-- Paths start where they did. -/
theorem origin (h : Tracks options before done contents fs) (lead : Path.Lead) :
    fs.origin lead = before.origin lead :=
  FileSystem.origin_congr h.workingDirectory lead

/-- Paths name the places that they did. -/
theorem destination (h : Tracks options before done contents fs) (p : Path) :
    fs.destination p = before.destination p :=
  FileSystem.destination_congr h.workingDirectory p

/-- The working directory is still there. -/
theorem grounded (h : Tracks options before done contents fs) (hg : before.Grounded) :
    fs.Grounded := by
  rw [FileSystem.Grounded, h.workingDirectory]
  exact h.directory _ hg

/-- The directories and files that were there are there. -/
theorem extended (h : Tracks options before done contents fs) : before.Extends fs where
  workingDirectory := h.workingDirectory
  directory := h.directory
  file q content hq := by
    have hthere := h.file q (by simp [FileSystem.contents_eq_some.2 hq])
    rw [← h.contents_eq] at hthere
    obtain ⟨content', hcontent⟩ := Option.ne_none_iff_exists'.1 hthere
    exact ⟨content', FileSystem.contents_eq_some.1 hcontent⟩

/-- The sources are found and read as before the run. -/
theorem read (h : Tracks options before done contents fs) (hset : Setting options before tree)
    (hp : IsSource (.ofString options.input) tree n p) : fs.read p = before.read p := by
  obtain ⟨root, entries, hlocate, htree, -⟩ := FileSystem.directoryAt?_eq_some.1 hset.directory
  refine h.extended.read_source hlocate htree hp ?_
  rw [h.contents_eq, hp.1, FileSystem.destination_source, SourceName.place, ← List.append_assoc]
  exact h.source _ n

/-- A source is still the text that it was. -/
theorem readText (h : Tracks options before done contents fs) (hset : Setting options before tree)
    (hp : IsSource (.ofString options.input) tree n p) :
    ({ files := fs } : Session).readText p = ({ files := before } : Session).readText p := by
  rw [Session.readText, h.read hset hp, Session.readText]

/-- **Whether the code of a source can be stored does not depend on the directories that the sources
before it have left.** -/
theorem storable_iff (h : Tracks options before done contents fs)
    (hp : IsSource (.ofString options.input) tree n p)
    (hdone : ∀ u ∈ done, ∃ m, IsSource (.ofString options.input) tree m u.1 ∧
      u.1.components ≤ p.components) :
    fs.Storable fs.contents (options.codePath p)
      ↔ before.Storable contents (options.codePath p) := by
  rw [hp.codePath, h.contents_eq]
  constructor
  · rintro ⟨hnamed, hshort, hsizes, hclear, hapart, hfree⟩
    rw [h.origin] at hclear
    rw [h.origin, h.destination] at hapart
    rw [h.destination] at hfree
    exact ⟨hnamed, hshort, hsizes, hclear, hapart, fun hdir => hfree (h.directory _ hdir)⟩
  · intro hs
    refine ⟨hs.named, hs.short, hs.sizes, ?_, ?_, ?_⟩
    · rw [h.origin]
      exact hs.clear
    · rw [h.origin, h.destination]
      exact hs.apart
    · rw [h.destination]
      intro hdir
      -- a directory there is an old one, or one for the code of an earlier source
      rcases h.made _ hdir with hold | ⟨u, hu, hvisits⟩
      · exact hs.free hold
      · obtain ⟨m, hm, hle⟩ := hdone u hu
        rw [hm.codePath] at hvisits
        rw [hm.1, hp.1] at hle
        exact hs.apart
          (SourceName.visits_destination hle (SourceName.stem_ne_of_storable hs) hvisits)

/-- What the code of a source leaves in the file system, if `code?` is there or not. -/
theorem stored {p : Path} {code? : Option Code} {contents' : List String → Option ByteArray}
    (h : Tracks options before done contents fs)
    (heffect : fs.StoreEffect fs' (options.codePath p) contents')
    (hfile : ∀ q, contents q ≠ none → contents' q ≠ none)
    (hsource : ∀ place (n : SourceName),
      contents' (place ++ [n.fileName]) = contents (place ++ [n.fileName]))
    (hreached : code? ≠ none → fs'.Passes (before.origin (options.codePath p).lead)
      (options.codePath p).pieces.dropLast) :
    Tracks options before (done ++ [(p, code?)]) contents' fs' where
  workingDirectory := heffect.workingDirectory.trans h.workingDirectory
  contents_eq := heffect.contents
  directory q hq := heffect.directory q (h.directory q hq)
  made q hq := by
    rcases heffect.made q hq with hq | hvisits
    · exact (h.made q hq).imp_right fun ⟨u, hu, hvisits⟩ => ⟨u, by simp [hu], hvisits⟩
    · rw [h.origin] at hvisits
      exact .inr ⟨(p, code?), by simp, hvisits⟩
  file q hq := hfile q (h.file q hq)
  source place n := (hsource place n).trans (h.source place n)
  reached u hu hsome := by
    rcases List.mem_append.1 hu with hu | hu
    · exact fun q hq => heffect.directory q (h.reached u hu hsome q hq)
    · rw [List.mem_singleton.1 hu] at hsome ⊢
      exact hreached hsome

/-- A source that fails before anything is stored changes nothing. -/
theorem failed (h : Tracks options before done contents fs) (p : Path) :
    Tracks options before (done ++ [(p, none)]) contents fs := by
  refine h.stored ⟨rfl, h.contents_eq, fun _ hq => hq, fun _ hq => .inl hq⟩ (fun _ hq => hq)
    (fun _ _ => rfl) (fun hsome => absurd rfl hsome)

/-- A source whose code cannot be stored changes no file. -/
theorem storeFailed (h : Tracks options before done contents fs)
    (hset : Setting options before tree) (hp : IsSource (.ofString options.input) tree n p)
    (hstore : fs.store (options.codePath p) code.text.toUTF8 = (false, fs')) :
    Tracks options before (done ++ [(p, none)]) contents fs' := by
  have hg := h.grounded hset.grounded
  rw [hp.codePath] at hstore
  have heffect := FileSystem.store_effect_of_false hg n.isProper_codeName hstore
  rw [h.contents_eq] at heffect
  refine h.stored ?_ (fun _ hq => hq) (fun _ _ => rfl) (fun hsome => absurd rfl hsome)
  rw [hp.codePath]
  exact heffect

/-- The code that is stored is the one file that changes. -/
theorem store (h : Tracks options before done contents fs)
    (hset : Setting options before tree) (hp : IsSource (.ofString options.input) tree n p)
    (hs : before.Storable contents (options.codePath p))
    (hstore : fs.store (options.codePath p) code.text.toUTF8 = (true, fs')) :
    Tracks options before (done ++ [(p, some code)])
      (Function.update contents (before.destination (options.codePath p))
        (some code.text.toUTF8)) fs' := by
  have hg := h.grounded hset.grounded
  rw [hp.codePath] at hstore hs
  obtain ⟨heffect, hpasses⟩ := FileSystem.store_effect hg n.isProper_codeName hstore
  rw [h.contents_eq, h.destination] at heffect
  rw [h.origin] at hpasses
  refine h.stored ?_ ?_ ?_ ?_
  · rw [hp.codePath]
    exact heffect
  · intro q hq
    by_cases hplace : q = before.destination (options.codePath p)
    · simp [hplace]
    · rwa [Function.update_of_ne hplace]
  · intro place m
    have hne : before.destination (n.codePath options.codeDirectory) ≠ place ++ [m.fileName] :=
      SourceName.destination_codePath_ne (SourceName.stem_ne_of_storable hs) place
    rw [hp.codePath, Function.update_of_ne hne.symm]
  · intro _
    rw [hp.codePath, n.dropLast_codePath]
    exact hpasses

/-- **The run does to the files what becomes of the source**, and has the labels that it leaves. -/
theorem compileFile (h : Tracks options before done now.contents fs)
    (hset : Setting options before tree) (hp : IsSource (.ofString options.input) tree n p)
    (hdone : ∀ u ∈ done, ∃ m, IsSource (.ofString options.input) tree m u.1 ∧
      u.1.components ≤ p.components) :
    (compileFileEffect options now.labels p fs).1
        = ((deliver options before now p).1.isSome, (deliver options before now p).2.labels) ∧
      Tracks options before (done ++ [(p, (deliver options before now p).1)])
        (deliver options before now p).2.contents
        (compileFileEffect options now.labels p fs).2 := by
  unfold compileFileEffect deliver
  rw [h.readText hset hp]
  cases ({ files := before } : Session).readText p with
  | error fault => exact ⟨rfl, h.failed p⟩
  | ok source =>
    dsimp only
    cases compile source now.labels with
    | error e labels => exact ⟨rfl, h.failed p⟩
    | ok code labels =>
      dsimp only
      have hexists : (∃ fs', fs.store (n.codePath options.codeDirectory) code.text.toUTF8
          = (true, fs')) ↔ fs.Storable fs.contents (n.codePath options.codeDirectory) :=
        FileSystem.exists_store_eq (h.grounded hset.grounded) n.isProper_codeName
      rw [← hp.codePath, h.storable_iff hp hdone] at hexists
      rcases hstore : fs.store (options.codePath p) code.text.toUTF8 with ⟨_ | _, fs'⟩
      · have hs : ¬ before.Storable now.contents (options.codePath p) := by
          intro hs
          obtain ⟨fs'', hstored⟩ := hexists.2 hs
          rw [hstore] at hstored
          cases hstored
        rw [if_neg hs]
        exact ⟨rfl, h.storeFailed hset hp hstore⟩
      · have hs := hexists.1 ⟨fs', hstore⟩
        rw [if_pos hs]
        exact ⟨rfl, h.store hset hp hs hstore⟩

end Tracks

/-! ## All sources -/

/-- **The run does to the files what becomes of its sources**, and counts those that leave none. -/
theorem Tracks.foldl {sources : List Path} (h : Tracks options before done now.contents fs)
    (failed : Nat) (hset : Setting options before tree)
    (hsources : Collected (.ofString options.input) tree (done.map Prod.fst ++ sources)) :
    let last := sources.foldl (compileNextEffect options) ((failed, now.labels), fs)
    last.1.1 = failed + (deliverAll options before now sources).1.countP Option.isNone ∧
      Tracks options before (done ++ sources.zip (deliverAll options before now sources).1)
        (deliverAll options before now sources).2.contents last.2 := by
  induction sources generalizing done now fs failed with
  | nil => simpa [deliverAll] using h
  | cons p sources ih =>
    obtain ⟨n, hp⟩ := hsources.isSource p (by simp)
    -- the sources that are done come before this one in the order of paths
    have hdone : ∀ u ∈ done, ∃ m, IsSource (.ofString options.input) tree m u.1 ∧
        u.1.components ≤ p.components := by
      intro u hu
      have hmem : u.1 ∈ done.map Prod.fst := List.mem_map_of_mem hu
      obtain ⟨m, hm⟩ := hsources.isSource u.1 (by simp [hmem])
      exact ⟨m, hm, (List.pairwise_append.1 hsources.sorted).2.2 u.1 hmem p (by simp)⟩
    obtain ⟨hresult, hnext⟩ := h.compileFile hset hp hdone
    have hstep : compileNextEffect options ((failed, now.labels), fs) p
        = ((if (deliver options before now p).1.isSome then failed else failed + 1,
            (deliver options before now p).2.labels),
          (compileFileEffect options now.labels p fs).2) := by
      rw [compileNextEffect]
      simp only [hresult]
    rw [List.foldl_cons, hstep]
    obtain ⟨hcount, htracks⟩ := ih hnext _ (by simpa using hsources)
    rw [List.append_assoc] at htracks
    refine ⟨hcount.trans ?_, htracks⟩
    rw [deliverAll, List.countP_cons]
    cases (deliver options before now p).1 with
    | none => simp [Nat.add_assoc, Nat.add_comm]
    | some code => simp

end CommandLine

end JackCompiler
