import JackCompiler.Proofs.Files.Delivery
import JackCompiler.Proofs.LabelShift
/-!
# What a run leaves

A run on a directory leaves the files as they were, except for the code of the sources that succeed.
No source changes, a source that fails changes no file, and the sources after it have the code that
they would have without it, except for the numbers of labels.
-/

namespace JackCompiler

namespace CommandLine

variable {options : Options} {before after : FileSystem ByteArray} {tree : FileTree ByteArray}
  {now : Progress} {p q : Path} {code : Code} {sources : List Path} {place : List String}

/-! ## Which files change -/

/-- A source leaves the files as they are, or its code can be stored and is the only change. -/
theorem deliver_cases (options : Options) (before : FileSystem ByteArray) (now : Progress)
    (p : Path) :
    (∃ labels, now.labels.next ≤ labels.next ∧
        deliver options before now p = (none, { now with labels })) ∨
      ∃ code labels, before.Storable now.contents (options.codePath p) ∧
        deliver options before now p
          = (some code, ⟨Function.update now.contents (before.destination (options.codePath p))
              (some code.text.toUTF8), labels⟩) := by
  unfold deliver
  cases ({ files := before } : Session).readText p with
  | error fault => exact .inl ⟨now.labels, Nat.le_refl _, rfl⟩
  | ok source =>
    dsimp only
    have hclimbs := climbs_compile source now.labels
    cases hcompile : compile source now.labels with
    | error e labels =>
      rw [hcompile] at hclimbs
      exact .inl ⟨labels, hclimbs, rfl⟩
    | ok code labels =>
      rw [hcompile] at hclimbs
      dsimp only
      split
      · next hs => exact .inr ⟨code, labels, hs, rfl⟩
      · exact .inl ⟨labels, hclimbs, rfl⟩

theorem deliver_of_some (h : (deliver options before now p).1 = some code) :
    before.Storable now.contents (options.codePath p) ∧
      (deliver options before now p).2.contents
        = Function.update now.contents (before.destination (options.codePath p))
          (some code.text.toUTF8) := by
  rcases deliver_cases options before now p with ⟨labels, -, heq⟩ | ⟨code', labels, hs, heq⟩
  · rw [heq] at h
    cases h
  · rw [heq] at h ⊢
    cases h
    exact ⟨hs, rfl⟩

/-- A source that fails changes no file, but may take labels. -/
theorem deliver_of_none (h : (deliver options before now p).1 = none) :
    (deliver options before now p).2.contents = now.contents ∧
      now.labels.next ≤ (deliver options before now p).2.labels.next := by
  rcases deliver_cases options before now p with ⟨labels, hle, heq⟩ | ⟨code, labels, hs, heq⟩
  · rw [heq]
    exact ⟨rfl, hle⟩
  · rw [heq] at h
    cases h

theorem mem_zip_deliverAll_cons {u : Path × Option Code} :
    u ∈ (q :: sources).zip (deliverAll options before now (q :: sources)).1 ↔
      u = (q, (deliver options before now q).1) ∨
        u ∈ sources.zip (deliverAll options before (deliver options before now q).2 sources).1 := by
  rw [deliverAll, List.zip_cons_cons, List.mem_cons]

theorem storable_of_mem_zip
    (h : (p, some code) ∈ sources.zip (deliverAll options before now sources).1) :
    ∃ contents, before.Storable contents (options.codePath p) := by
  induction sources generalizing now with
  | nil => simp at h
  | cons q sources ih =>
    rcases mem_zip_deliverAll_cons.1 h with heq | h
    · obtain ⟨rfl, hcode⟩ := Prod.mk.inj heq
      exact ⟨_, (deliver_of_some hcode.symm).1⟩
    · exact ih h

/-- None of the sources has its code at the place. -/
def Spared (options : Options) (before : FileSystem ByteArray) (units : List (Path × Option Code))
    (place : List String) : Prop :=
  ∀ p code, (p, some code) ∈ units → place ≠ before.destination (options.codePath p)

/-- Where no code is stored, the files stay as they are. -/
theorem contents_deliverAll_of_spared
    (h : Spared options before (sources.zip (deliverAll options before now sources).1) place) :
    (deliverAll options before now sources).2.contents place = now.contents place := by
  induction sources generalizing now with
  | nil => rfl
  | cons q sources ih =>
    have hrest := ih fun p code hp => h p code (mem_zip_deliverAll_cons.2 (.inr hp))
    -- what is left is the first source
    refine hrest.trans ?_
    cases hq : (deliver options before now q).1 with
    | none => rw [(deliver_of_none hq).1]
    | some code =>
      have hne := h q code (mem_zip_deliverAll_cons.2 (.inl (by rw [hq])))
      rw [(deliver_of_some hq).2, Function.update_of_ne hne]

namespace IsSource

theorem stem_ne {n : SourceName} {contents : List String → Option ByteArray}
    (hp : IsSource (.ofString options.input) tree n p)
    (hs : before.Storable contents (options.codePath p)) : n.stem ≠ "." := by
  rw [hp.codePath] at hs
  exact SourceName.stem_ne_of_storable hs

theorem eq_of_destination {m n : SourceName}
    (hp : IsSource (.ofString options.input) tree m p)
    (hq : IsSource (.ofString options.input) tree n q) (hm : m.stem ≠ ".") (hn : n.stem ≠ ".")
    (h : before.destination (options.codePath p) = before.destination (options.codePath q)) :
    p = q := by
  rw [hp.codePath, hq.codePath] at h
  rw [hp.1, hq.1]
  exact SourceName.path_eq_of_destination hm hn h

end IsSource

/-- **The code of a source is at its place after the run.** -/
theorem contents_deliverAll
    (hsources : Collected (.ofString options.input) tree sources)
    (h : (p, some code) ∈ sources.zip (deliverAll options before now sources).1) :
    (deliverAll options before now sources).2.contents (before.destination (options.codePath p))
      = some code.text.toUTF8 := by
  induction sources generalizing now with
  | nil => simp at h
  | cons q sources ih =>
    rcases mem_zip_deliverAll_cons.1 h with heq | h
    · obtain ⟨rfl, hcode⟩ := Prod.mk.inj heq
      obtain ⟨hs, hcontents⟩ := deliver_of_some hcode.symm
      -- the sources behind it are others, so they have their code elsewhere
      have hlater : Spared options before
          (sources.zip (deliverAll options before (deliver options before now p).2 sources).1)
          (before.destination (options.codePath p)) := by
        intro r code' hr heq
        have hmem := (List.of_mem_zip hr).1
        obtain ⟨m, hm⟩ := hsources.isSource p (by simp)
        obtain ⟨n, hn⟩ := hsources.isSource r (by simp [hmem])
        obtain ⟨contents', hs'⟩ := storable_of_mem_zip hr
        obtain rfl := hm.eq_of_destination hn (hm.stem_ne hs) (hn.stem_ne hs') heq
        exact (List.nodup_cons.1 hsources.nodup).1 hmem
      refine (contents_deliverAll_of_spared hlater).trans ?_
      rw [hcontents, Function.update_self]
    · exact ih (hsources.sublist (List.sublist_cons_self q sources)) h

theorem eq_of_mem_zip {α β : Type} {as : List α} {bs : List β} {a : α} {b b' : β} (h : as.Nodup)
    (hb : (a, b) ∈ as.zip bs) (hb' : (a, b') ∈ as.zip bs) : b = b' := by
  obtain ⟨i, hi⟩ := List.mem_iff_getElem?.1 hb
  obtain ⟨j, hj⟩ := List.mem_iff_getElem?.1 hb'
  rw [List.getElem?_zip_eq_some] at hi hj
  have hlt : i < as.length := (List.getElem?_eq_some_iff.1 hi.1).1
  obtain rfl : i = j := (List.getElem?_inj hlt h).1 (hi.1.trans hj.1.symm)
  exact Option.some_inj.1 (hi.2.symm.trans hj.2)

/-- The place for the code of a source that fails is spared by the others. -/
theorem spared_of_failed {n : SourceName}
    (hsources : Collected (.ofString options.input) tree sources)
    (hp : IsSource (.ofString options.input) tree n p) (hdot : n.stem ≠ ".")
    (hmem : (p, none) ∈ sources.zip (deliverAll options before now sources).1) :
    Spared options before (sources.zip (deliverAll options before now sources).1)
      (before.destination (options.codePath p)) := by
  intro q code hq heq
  obtain ⟨m, hm⟩ := hsources.isSource q (List.of_mem_zip hq).1
  obtain ⟨contents, hs⟩ := storable_of_mem_zip hq
  obtain rfl : p = q := hp.eq_of_destination hm hdot (hm.stem_ne hs) heq
  cases eq_of_mem_zip hsources.nodup hmem hq

/-! ## What a run leaves -/

/-- What the run leaves, where `codes` are the codes of the sources that have one: the code of a
source is at its path, the other files are as before, also the sources, and at the path for the code
of a source that has none. -/
structure Leaves (options : Options) (before after : FileSystem ByteArray) (sources : List Path)
    (codes : List (Option Code)) : Prop where
  workingDirectory : after.workingDirectory = before.workingDirectory
  written : ∀ p code, (p, some code) ∈ sources.zip codes →
    after.read (options.codePath p) = .ok code.text.toUTF8
  kept : ∀ place, (∀ p code, (p, some code) ∈ sources.zip codes →
    after.locate (options.codePath p) ≠ .ok place) → after.contents place = before.contents place
  source : ∀ p ∈ sources, after.read p = before.read p
  failed : ∀ p, (p, none) ∈ sources.zip codes → ∀ place,
    after.locateNew (options.codePath p) = .ok place →
      after.contents place = before.contents place

/-- Once its code is stored, the path for the code of a source leads to it. -/
theorem Tracks.locate_codePath {done : List (Path × Option Code)} {n : SourceName}
    {contents contents' : List String → Option ByteArray} {bytes : ByteArray}
    (h : Tracks options before done contents after)
    (hp : IsSource (.ofString options.input) tree n p) (hmem : (p, some code) ∈ done)
    (hs : before.Storable contents' (options.codePath p))
    (hthere : contents (before.destination (options.codePath p)) = some bytes) :
    after.locate (options.codePath p) = .ok (before.destination (options.codePath p)) ∧
      after.find (before.destination (options.codePath p)) = .file bytes := by
  have hpasses := h.reached _ hmem (by simp)
  rw [← h.contents_eq, FileSystem.contents_eq_some] at hthere
  refine ⟨?_, hthere⟩
  rw [← h.destination]
  refine FileSystem.locate_eq_ok.2 ⟨hs.short, ?_, ?_, rfl⟩
  · rw [hp.codePath]
    exact Path.text_concat_ne_empty (Path.isProper_iff.1 n.isProper_codeName).1
  · rw [← h.origin] at hpasses
    rw [← h.destination] at hthere
    have hsizes := hs.sizes
    rw [hp.codePath] at hthere hsizes hpasses ⊢
    rw [n.dropLast_codePath] at hpasses
    rw [SourceName.codePath, FileSystem.destination_concat] at hthere
    refine hpasses.follows_concat hsizes fun hnothing => ?_
    cases hnothing.symm.trans hthere

/-- **A run that follows what becomes of its sources leaves just that.** -/
theorem Tracks.leaves (hset : Setting options before tree)
    (hsources : Collected (.ofString options.input) tree sources)
    (hnow : now.contents = before.contents)
    (h : Tracks options before (sources.zip (deliverAll options before now sources).1)
      (deliverAll options before now sources).2.contents after) :
    Leaves options before after sources (deliverAll options before now sources).1 := by
  have hplace : ∀ p code, (p, some code) ∈ sources.zip (deliverAll options before now sources).1 →
      after.locate (options.codePath p) = .ok (before.destination (options.codePath p)) ∧
        after.find (before.destination (options.codePath p)) = .file code.text.toUTF8 := by
    intro p code hmem
    obtain ⟨n, hn⟩ := hsources.isSource p (List.of_mem_zip hmem).1
    obtain ⟨contents, hs⟩ := storable_of_mem_zip hmem
    exact h.locate_codePath hn hmem hs (contents_deliverAll hsources hmem)
  have hkept : ∀ place,
      Spared options before (sources.zip (deliverAll options before now sources).1) place →
      after.contents place = before.contents place := by
    intro place hspared
    rw [h.contents_eq, ← hnow]
    exact contents_deliverAll_of_spared hspared
  refine ⟨h.workingDirectory, ?_, ?_, ?_, ?_⟩
  · intro p code hmem
    obtain ⟨hlocate, hfile⟩ := hplace p code hmem
    exact FileSystem.read_of_locate hlocate hfile
  · intro place hne
    refine hkept place fun p code hmem heq => hne p code hmem ?_
    rw [heq]
    exact (hplace p code hmem).1
  · intro p hp
    obtain ⟨n, hn⟩ := hsources.isSource p hp
    exact h.read hset hn
  · intro p hmem place hlocate
    obtain ⟨n, hn⟩ := hsources.isSource p (List.of_mem_zip hmem).1
    rw [hn.codePath, SourceName.codePath] at hlocate
    by_cases hdot : n.stem = "."
    · -- the path for its code leads to a directory
      rw [Path.codeName, if_pos hdot] at hlocate
      have hnone := FileSystem.contents_of_directory (FileSystem.find_of_locateNew_up hlocate)
      rw [hnone]
      by_contra hsome
      exact h.file place (Ne.symm hsome) (by rw [← h.contents_eq, hnone])
    · obtain ⟨-, rfl⟩ := (FileSystem.locateNew_eq_ok n.isProper_codeName
        (SourceName.codeName_ne_up hdot)).1 hlocate
      have hspared := spared_of_failed hsources hn hdot hmem
      rw [hn.codePath] at hspared
      rw [h.destination]
      exact hkept _ hspared

/-- **The loop over the sources leaves what becomes of them**, and counts those that fail. -/
theorem Setting.foldl (hset : Setting options before tree)
    (hsources : Collected (.ofString options.input) tree sources) :
    let last := sources.foldl (compileNextEffect options) ((0, {}), before)
    last.1.1 = (deliverAll options before ⟨before.contents, {}⟩ sources).1.countP Option.isNone ∧
      Leaves options before last.2 sources
        (deliverAll options before ⟨before.contents, {}⟩ sources).1 := by
  have hstart : Tracks options before [] (Progress.mk before.contents {}).contents before :=
    tracks_start options before
  obtain ⟨hcount, htracks⟩ := hstart.foldl 0 hset hsources
  rw [Nat.zero_add] at hcount
  exact ⟨hcount, htracks.leaves hset hsources rfl⟩

/-! ## Without a source that fails -/

/-- Whether a file can be stored depends on where there are files, not on what is in them. -/
theorem storable_congr {contents contents' : List String → Option ByteArray}
    (h : ∀ q, contents q = none ↔ contents' q = none) :
    before.Storable contents p ↔ before.Storable contents' p := by
  constructor
  · intro hs
    exact { hs with clear := fun q hq => (h q).1 (hs.clear q hq) }
  · intro hs
    exact { hs with clear := fun q hq => (h q).2 (hs.clear q hq) }

/-- The second stands where the first does, with other labels and so with other code in its files.
-/
structure Progress.Shifted (n : Nat) (a b : Progress) : Prop where
  contents : ∀ q, a.contents q = none ↔ b.contents q = none
  labels : b.labels = a.labels.shift n

theorem update_eq_none {α : Type} {contents : List String → Option α} {q : List String}
    (content : α) : Function.update contents place (some content) q = none ↔
      q ≠ place ∧ contents q = none := by
  by_cases hq : q = place
  · subst hq
    simp
  · simp [hq]

theorem Progress.Shifted.deliver {n : Nat} {a b : Progress} (h : a.Shifted n b)
    (options : Options) (before : FileSystem ByteArray) (p : Path) :
    (deliver options before b p).1
        = (deliver options before a p).1.map (Code.shiftLabels n) ∧
      (deliver options before a p).2.Shifted n (deliver options before b p).2 := by
  unfold CommandLine.deliver
  cases ({ files := before } : Session).readText p with
  | error fault => exact ⟨rfl, h⟩
  | ok source =>
    have hcompile : compile source b.labels
        = Labels.shiftResult n (Code.shiftLabels n) (compile source a.labels) := by
      rw [h.labels]
      exact shifts_compile n source a.labels
    dsimp only
    rw [hcompile]
    cases compile source a.labels with
    | error e labels => exact ⟨rfl, h.contents, rfl⟩
    | ok code labels =>
      change (if before.Storable b.contents (options.codePath p) then _ else _ : _ × Progress).1
        = _ ∧ Progress.Shifted n _
          (if before.Storable b.contents (options.codePath p) then _ else _ : _ × Progress).2
      dsimp only
      by_cases hs : before.Storable a.contents (options.codePath p)
      · rw [if_pos hs, if_pos ((storable_congr h.contents).1 hs)]
        refine ⟨rfl, fun q => ?_, rfl⟩
        simp only [update_eq_none, h.contents]
      · rw [if_neg hs, if_neg (mt (storable_congr h.contents).2 hs)]
        exact ⟨rfl, h.contents, rfl⟩

theorem Progress.Shifted.deliverAll {n : Nat} {a b : Progress} (h : a.Shifted n b) :
    (deliverAll options before b sources).1
      = (deliverAll options before a sources).1.map (Option.map (Code.shiftLabels n)) := by
  induction sources generalizing a b with
  | nil => rfl
  | cons p sources ih =>
    obtain ⟨hcode, hnext⟩ := h.deliver options before p
    simp only [CommandLine.deliverAll, List.map_cons, hcode, ih hnext]

theorem deliverAll_append (xs ys : List Path) :
    deliverAll options before now (xs ++ ys)
      = ((deliverAll options before now xs).1
          ++ (deliverAll options before (deliverAll options before now xs).2 ys).1,
        (deliverAll options before (deliverAll options before now xs).2 ys).2) := by
  induction xs generalizing now with
  | nil => rfl
  | cons p xs ih => simp only [List.cons_append, deliverAll, ih]

theorem length_deliverAll (sources : List Path) :
    (deliverAll options before now sources).1.length = sources.length := by
  induction sources generalizing now with
  | nil => rfl
  | cons p sources ih => simp only [deliverAll, List.length_cons, ih]

theorem exists_shifted_of_none (h : (deliver options before now p).1 = none) :
    ∃ n, now.Shifted n (deliver options before now p).2 := by
  obtain ⟨hcontents, hlabels⟩ := deliver_of_none h
  refine ⟨(deliver options before now p).2.labels.next - now.labels.next,
    fun q => by rw [hcontents], ?_⟩
  rw [Labels.shift, Nat.sub_add_cancel hlabels]

/-- **A source that fails changes nothing for the others but the numbers of labels.** -/
theorem deliverAll_of_failed {xs ys : List Path}
    (h : (deliverAll options before now (xs ++ p :: ys)).1[xs.length]? = some none) :
    ∃ n, (deliverAll options before now (xs ++ p :: ys)).1
      = (deliverAll options before now (xs ++ ys)).1.take xs.length ++ none ::
        ((deliverAll options before now (xs ++ ys)).1.drop xs.length).map
          (Option.map (Code.shiftLabels n)) := by
  -- both runs begin with `xs`, and then stand at the same files with other labels
  have hlength : (deliverAll options before now xs).1.length = xs.length := length_deliverAll xs
  rw [deliverAll_append] at h ⊢
  rw [deliverAll_append, List.take_left' hlength, List.drop_left' hlength]
  rw [← hlength, List.getElem?_append_right (Nat.le_refl _), Nat.sub_self, deliverAll,
    List.getElem?_cons_zero, Option.some_inj] at h
  obtain ⟨n, hshifted⟩ := exists_shifted_of_none h
  refine ⟨n, ?_⟩
  rw [deliverAll, h, hshifted.deliverAll]

/-! ## Whole runs -/

theorem runOn_eq {args : List String} (hargs : Options.ofArguments? args = some options)
    (before : FileSystem ByteArray) :
    let last := (options.sources before).foldl (compileNextEffect options) ((0, {}), before)
    (runOn args before).1 = (if last.1.1 = 0 then 0 else 1) ∧
      (runOn args before).2.files = last.2 := by
  obtain ⟨printed, hrun⟩ := performs_run options { files := before }
  have hexecute :
      runOn args before = (run options : StateM Session UInt32).run { files := before } := by
    rw [runOn, execute, hargs]
  rw [hexecute, hrun]
  exact ⟨rfl, rfl⟩

theorem countP_isNone_eq_zero {codes : List (Option Code)} :
    codes.countP Option.isNone = 0 ↔ none ∉ codes := by
  rw [List.countP_eq_zero]
  constructor
  · exact fun h hmem => h none hmem rfl
  · intro h code hcode hnone
    rw [Option.isNone_iff_eq_none.1 hnone] at hcode
    exact h hcode

/-- **The effect of a run on the files is exactly the sources that succeed.** For a run on a
directory, what becomes of its sources is told by `deliverAll`: a source has code if it is a text,
compiles with the labels that the sources before it leave, and its code can be stored. The run exits
with 0 if all have code and with 1 otherwise. It leaves the files as they were but for the code of
the sources that have one; no source is changed, and a source that has none changes no file. The
other sources have the code that they have without it, except that the labels behind it are shifted.
Only a path that is too long keeps a source from being read. -/
theorem runOn_leaves {args : List String} (hargs : Options.ofArguments? args = some options)
    (hset : Setting options before tree) :
    let sources := options.sources before
    let codes := (deliverAll options before ⟨before.contents, {}⟩ sources).1
    (runOn args before).1 = (if none ∈ codes then 1 else 0) ∧
      Leaves options before (runOn args before).2.files sources codes ∧
      (∀ xs p ys, sources = xs ++ p :: ys → codes[xs.length]? = some none →
        let others := (deliverAll options before ⟨before.contents, {}⟩ (xs ++ ys)).1
        Leaves options before
            ((compileAll options (xs ++ ys) : StateM Session Nat).run { files := before }).2.files
            (xs ++ ys) others ∧
          ∃ n, codes = others.take xs.length ++
            none :: (others.drop xs.length).map (Option.map (Code.shiftLabels n))) ∧
      ∀ p ∈ sources, (∃ content, before.read p = .ok content) ∨
        before.read p = .error .nameTooLong := by
  intro sources codes
  have hsources : Collected (.ofString options.input) tree sources := hset.collected
  obtain ⟨hstatus, hfiles⟩ := runOn_eq hargs before
  obtain ⟨hcount, hleaves⟩ := hset.foldl hsources
  refine ⟨?_, ?_, ?_, ?_⟩
  · rw [hstatus, hcount]
    simp only [countP_isNone_eq_zero, ite_not]
    rfl
  · rw [hfiles]
    exact hleaves
  · intro xs p ys hsplit hfailed
    have hothers : Collected (.ofString options.input) tree (xs ++ ys) := by
      refine hsources.sublist ?_
      rw [hsplit]
      exact (List.sublist_cons_self p ys).append_left xs
    obtain ⟨printed, hrun⟩ := performs_compileAll options (xs ++ ys) { files := before }
    have hnone : (deliverAll options before ⟨before.contents, {}⟩ (xs ++ p :: ys)).1[xs.length]?
        = some none := by
      rw [← hsplit]
      exact hfailed
    obtain ⟨n, hcodes⟩ := deliverAll_of_failed hnone
    rw [← hsplit] at hcodes
    refine ⟨?_, n, hcodes⟩
    rw [hrun]
    exact (hset.foldl hothers).2
  · intro p hp
    obtain ⟨n, hn⟩ := hsources.isSource p hp
    obtain ⟨root, entries, hlocate, htree, -⟩ := FileSystem.directoryAt?_eq_some.1 hset.directory
    exact FileSystem.read_source hlocate htree hn

/-- Three sources: one takes a label and then fails, one is no text, and the last has code. -/
def mixedSources : FileTree ByteArray :=
  .directory
    [("A.jack", .file
        "class A \x7b function void f() \x7b while (x) \x7b \x7d return; \x7d \x7d".toUTF8),
      ("B.jack", .file ⟨#[255]⟩),
      ("C.jack", .file
        "class C \x7b function void f() \x7b while (true) \x7b \x7d return; \x7d \x7d".toUTF8)]

/-- The sources in one directory, and in another the code of the first source from an earlier run.
-/
def mixedFiles : FileSystem ByteArray where
  tree := .directory [("in", mixedSources), ("out", .directory [("A.vm", .file "old".toUTF8)])]

/-- From the one directory to the other. -/
def mixedOptions : Options where
  input := "in"
  output := some "out"
  dump := false

/-- The code of the last source, behind the label of the first. -/
def lastCode : Code :=
  [.function "C.f" 0, .label "WHILE_EXP_1", .push .constant 1, .compute .neg, .compute .not,
    .ifGoto "WHILE_END_1", .goto "WHILE_EXP_1", .label "WHILE_END_1", .push .constant 0, .ret]

/-- The run fails, and leaves the code of the last source and the old code of the first. -/
theorem runOn_mixedFiles :
    Options.ofArguments? ["in", "-o", "out"] = some mixedOptions ∧
      Setting mixedOptions mixedFiles mixedSources ∧
      (runOn ["in", "-o", "out"] mixedFiles).1 = 1 ∧
      (runOn ["in", "-o", "out"] mixedFiles).2.files.read (.ofString "out/C.vm")
        = .ok lastCode.text.toUTF8 ∧
      (runOn ["in", "-o", "out"] mixedFiles).2.files.contents ["out", "A.vm"]
        = some "old".toUTF8 := by
  have hargs : Options.ofArguments? ["in", "-o", "out"] = some mixedOptions := by decide +kernel
  have hset : Setting mixedOptions mixedFiles mixedSources := ⟨rfl, rfl, by decide +kernel⟩
  have hsorted : mixedOptions.sources mixedFiles
      = sourcesIn (.ofString "in") (FileSystem.outline (.ofString "in") mixedSources) :=
    List.mergeSort_of_pairwise (by decide +kernel)
  have hsources : mixedOptions.sources mixedFiles
      = ["A.jack", "B.jack", "C.jack"].map fun name => ⟨.relative, ["in", name]⟩ := by
    rw [hsorted]
    decide +kernel
  have hcodes : (deliverAll mixedOptions mixedFiles ⟨mixedFiles.contents, {}⟩
      (mixedOptions.sources mixedFiles)).1 = [none, none, some lastCode] := by
    rw [hsources]
    decide +kernel
  obtain ⟨hstatus, hleaves, -⟩ := runOn_leaves hargs hset
  rw [hcodes] at hstatus
  rw [hcodes, hsources] at hleaves
  refine ⟨hargs, hset, hstatus.trans (by decide), ?_, ?_⟩
  · have hlast : ((⟨.relative, ["in", "C.jack"]⟩ : Path), some lastCode) ∈
        (["A.jack", "B.jack", "C.jack"].map fun name => (⟨.relative, ["in", name]⟩ : Path)).zip
          [none, none, some lastCode] := by simp
    have hpath : mixedOptions.codePath ⟨.relative, ["in", "C.jack"]⟩ = .ofString "out/C.vm" := by
      decide +kernel
    rw [← hpath]
    exact hleaves.written _ _ hlast
  · refine (hleaves.kept _ ?_).trans rfl
    intro p code hmem hlocate
    obtain ⟨rfl, -⟩ : p = ⟨.relative, ["in", "C.jack"]⟩ ∧ code = lastCode := by simpa using hmem
    have hplace := (FileSystem.locate_eq_ok.1 hlocate).2.2.2
    rw [FileSystem.destination_congr hleaves.workingDirectory] at hplace
    revert hplace
    decide +kernel

end CommandLine

end JackCompiler
