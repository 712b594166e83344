import JackCompiler.Proofs.Files.Making
import Mathlib.Logic.Function.Basic
/-!
# Storing a file

A file is stored by making the directories above it and writing it (`FileSystem.store`). Whether
that succeeds is told by the path, the files and the directories that are there
(`FileSystem.Storable`). Its effect on the files is the one file if it succeeds and none if it
fails; beside that it can only leave directories on the way to the file.
-/

namespace JackCompiler

namespace FileSystem

open JackCompiler.Path (isProper)

variable {α : Type} {fs fs' : FileSystem α} {lead : Path.Lead} {pieces : List String}
  {piece : String} {place : List String} {content : α}

/-- Makes the directory of a path, and those above it that are missing. -/
def makeAbove (fs : FileSystem α) (p : Path) : Except FileFault Unit × FileSystem α :=
  match p.parent? with
  | some dir => if dir.text = "" then (.ok (), fs) else fs.makeDirectories dir.ancestors
  | none => (.ok (), fs)

/-- Writes a file if that is possible. The answer says whether it was. -/
def put (fs : FileSystem α) (p : Path) (content : α) : Bool × FileSystem α :=
  match fs.write p content with
  | .ok fs => (true, fs)
  | .error _ => (false, fs)

/-- Stores a file, with the directories above it. The answer says whether that worked. -/
def store (fs : FileSystem α) (p : Path) (content : α) : Bool × FileSystem α :=
  match fs.makeAbove p with
  | (.error _, fs) => (false, fs)
  | (.ok (), fs) => fs.put p content

/-- What it takes to store a file at a path, where the files are `contents` and the directories are
those of the file system: the path names something, it is not too long, no file is in its way, its
directories do not need its own place, and that is no directory. -/
structure Storable (fs : FileSystem α) (contents : List String → Option α) (p : Path) : Prop where
  named : p.fileName? ≠ none
  short : isTooLong p = false
  sizes : ∀ piece ∈ p.pieces, piece.utf8ByteSize ≤ nameLimit
  clear : ∀ q, Visits (fs.origin p.lead) p.pieces.dropLast q → contents q = none
  apart : ¬ Visits (fs.origin p.lead) p.pieces.dropLast (fs.destination p)
  free : fs.find (fs.destination p) ≠ .directory

/-- The places that a path visits are the ends of its beginnings. -/
theorem visits_iff_mem {start : List String} :
    Visits start pieces place ↔ place ∈ pieces.inits.map fun front => front.foldl walk start := by
  simp [Visits, eq_comm]

instance (start pieces place : List String) : Decidable (Visits start pieces place) :=
  decidable_of_iff _ visits_iff_mem.symm

instance (fs : FileSystem α) (contents : List String → Option α) (p : Path) :
    Decidable (fs.Storable contents p) :=
  decidable_of_iff
    (p.fileName? ≠ none ∧ isTooLong p = false ∧
      (∀ piece ∈ p.pieces, piece.utf8ByteSize ≤ nameLimit) ∧
      (∀ q ∈ p.pieces.dropLast.inits.map fun front => front.foldl walk (fs.origin p.lead),
        contents q = none) ∧
      ¬ Visits (fs.origin p.lead) p.pieces.dropLast (fs.destination p) ∧
      fs.find (fs.destination p) ≠ .directory)
    ⟨fun ⟨h₁, h₂, h₃, h₄, h₅, h₆⟩ => ⟨h₁, h₂, h₃, fun q hq => h₄ q (visits_iff_mem.1 hq), h₅, h₆⟩,
      fun h => ⟨h.named, h.short, h.sizes, fun q hq => h.clear q (visits_iff_mem.2 hq), h.apart,
        h.free⟩⟩

/-! ## The directories above -/

/-- The directories above a file are those of the path before its name. -/
theorem makeAbove_concat (hproper : isProper piece) :
    fs.makeAbove ⟨lead, pieces ++ [piece]⟩
      = fs.makeDirectories (Path.ancestors ⟨lead, pieces⟩) := by
  have htrim : Path.ancestors ⟨lead, Path.trimEnd pieces⟩ = Path.ancestors ⟨lead, pieces⟩ := by
    rw [Path.ancestors_eq, Path.fronts_trimEnd, ← Path.ancestors_eq]
  unfold makeAbove
  simp only [Path.parent?_concat hproper, htrim]
  split
  · next hempty =>
    -- a path without text has no ancestors
    suffices hnone : Path.ancestors ⟨lead, pieces⟩ = [] by
      rw [hnone]
      rfl
    rcases List.eq_nil_or_concat' (Path.trimEnd pieces) with hnil | ⟨front, last, hlast⟩
    · rw [hnil] at hempty
      rw [← htrim, hnil]
      cases lead with
      | root | current => exact absurd hempty (by decide)
      | relative => rfl
    · rw [hlast] at hempty
      have hname : last ≠ "" := (Path.isProper_iff.1 (Path.isProper_of_trimEnd hlast)).1
      exact absurd hempty (Path.text_concat_ne_empty hname)
  · rfl

/-- Only directories on the way to a file are made for it. -/
theorem grows_makeAbove {result : Except FileFault Unit} (hg : fs.Grounded)
    (hproper : isProper piece) (h : fs.makeAbove ⟨lead, pieces ++ [piece]⟩ = (result, fs')) :
    fs.Grows fs' (Visits (fs.origin lead) pieces) := by
  rw [makeAbove_concat hproper] at h
  have hgrows : fs.Grows (fs.makeDirectories (Path.ancestors ⟨lead, pieces⟩)).2
      (Visits (fs.origin lead) pieces) := grows_makeDirectories hg
  rwa [h] at hgrows

/-! ## When a file is stored -/

theorem fileName?_ne_none (hproper : isProper piece) :
    Path.fileName? ⟨lead, pieces ++ [piece]⟩ ≠ none ↔ piece ≠ ".." := by
  by_cases hup : piece = ".."
  · subst hup
    simp [Path.fileName?_up]
  · simp [Path.fileName?_concat hproper hup, hup]

/-- A file is stored if its directories can be made and it can then be written. -/
theorem store_eq_mk_true {p : Path} :
    fs.store p content = (true, fs') ↔
      ∃ fs₁, fs.makeAbove p = (.ok (), fs₁) ∧ fs₁.write p content = .ok fs' := by
  unfold store
  rcases fs.makeAbove p with ⟨_ | _, fs₁⟩
  · simp
  · cases hwrite : fs₁.write p content <;> simp [put, hwrite]

/-- **A file is stored exactly where it can be.** -/
theorem exists_store_eq (hg : fs.Grounded) (hproper : isProper piece) :
    (∃ fs', fs.store ⟨lead, pieces ++ [piece]⟩ content = (true, fs')) ↔
      fs.Storable fs.contents ⟨lead, pieces ++ [piece]⟩ := by
  simp only [store_eq_mk_true]
  constructor
  · rintro ⟨fs', fs₁, hmakes, hwrite⟩
    obtain ⟨hup, hadmits, hfree⟩ := (exists_write_eq_ok hproper).1 ⟨fs', hwrite⟩
    -- what is seen after the directories are made was there before, or is a new directory
    have hgrows := grows_makeAbove hg hproper hmakes
    have hpasses := hadmits.passes
    rw [origin_congr hgrows.workingDirectory] at hpasses
    rw [destination_congr hgrows.workingDirectory] at hfree
    refine ⟨(fileName?_ne_none hproper).2 hup, hadmits.short, hadmits.sizes, ?_, ?_, ?_⟩
    · rw [List.dropLast_concat, ← hgrows.contents]
      exact hpasses.clear
    · rw [List.dropLast_concat]
      exact fun hvisits => hfree (hpasses _ hvisits)
    · exact fun hdir => hfree (hgrows.directory hdir)
  · intro h
    have hclear := h.clear
    have hapart := h.apart
    rw [List.dropLast_concat] at hclear hapart
    obtain ⟨fs₁, hmakes, hmade⟩ :=
      Clear.makeDirectories hg hclear (fun p hp => h.sizes p (by simp [hp]))
        (isTooLong_of_concat h.short)
    have hadmits : fs₁.Admits lead pieces piece :=
      ⟨h.short, h.sizes, by rw [origin_congr hmade.workingDirectory]; exact hmade.inside⟩
    have hfree : fs₁.find (fs₁.destination ⟨lead, pieces ++ [piece]⟩) ≠ .directory := by
      rw [destination_congr hmade.workingDirectory]
      exact (hmade.outside _ hapart).trans_ne h.free
    obtain ⟨fs', hwrite⟩ := (exists_write_eq_ok hproper).2
      ⟨(fileName?_ne_none hproper).1 h.named, hadmits, hfree⟩
    exact ⟨fs', fs₁, by rw [makeAbove_concat hproper, hmakes], hwrite⟩

/-! ## What storing a file does -/

/-- The files are `contents`, no directory is gone, and all new ones are on the way to the file. -/
structure StoreEffect (fs fs' : FileSystem α) (p : Path) (contents : List String → Option α) :
    Prop where
  workingDirectory : fs'.workingDirectory = fs.workingDirectory
  contents : fs'.contents = contents
  directory : ∀ q, fs.find q = .directory → fs'.find q = .directory
  made : ∀ q, fs'.find q = .directory →
    fs.find q = .directory ∨ Visits (fs.origin p.lead) p.pieces.dropLast q

/-- Directories alone change no file. -/
theorem Grows.storeEffect {p : Path}
    (h : fs.Grows fs' (Visits (fs.origin p.lead) p.pieces.dropLast)) :
    fs.StoreEffect fs' p fs.contents where
  workingDirectory := h.workingDirectory
  contents := h.contents
  directory _ := h.directory
  made q hq := by
    rcases h.find q with heq | ⟨-, -, hvisits⟩
    · exact .inl (heq ▸ hq)
    · exact .inr hvisits

/-- Writing a file changes the content of one place. -/
theorem Changes.contents (h : fs.Changes fs' place (.file content)) :
    fs'.contents = Function.update fs.contents place (some content) := by
  funext q
  by_cases hq : q = place
  · subst hq
    rw [Function.update_self]
    exact contents_eq_some.2 h.find_self
  · rw [Function.update_of_ne hq, FileSystem.contents, h.find_of_ne hq, FileSystem.contents]

/-- A file that is written behind its directories is the one that changes. -/
theorem StoreEffect.write {fs'' : FileSystem α} {p : Path}
    (h : fs.StoreEffect fs' p fs.contents) (hfree : fs'.find place ≠ .directory)
    (h' : fs'.Changes fs'' place (.file content)) :
    fs.StoreEffect fs'' p (Function.update fs.contents place (some content)) where
  workingDirectory := h'.workingDirectory.trans h.workingDirectory
  contents := by rw [h'.contents, h.contents]
  directory q hq := by
    have hdir := h.directory q hq
    have hne : q ≠ place := fun heq => hfree (heq ▸ hdir)
    rw [h'.find_of_ne hne, hdir]
  made q hq := by
    have hne : q ≠ place := by
      rintro rfl
      rw [h'.find_self] at hq
      cases hq
    rw [h'.find_of_ne hne] at hq
    exact h.made q hq

/-- **Storing a file changes that file**, and then the directories above it are there. -/
theorem store_effect (hg : fs.Grounded) (hproper : isProper piece)
    (h : fs.store ⟨lead, pieces ++ [piece]⟩ content = (true, fs')) :
    fs.StoreEffect fs' ⟨lead, pieces ++ [piece]⟩
        (Function.update fs.contents (fs.destination ⟨lead, pieces ++ [piece]⟩) (some content)) ∧
      fs'.Passes (fs.origin lead) pieces := by
  obtain ⟨fs₁, hmakes, hwrite⟩ := store_eq_mk_true.1 h
  have hgrows := grows_makeAbove hg hproper hmakes
  obtain ⟨-, hadmits, hfree⟩ := (exists_write_eq_ok hproper).1 ⟨fs', hwrite⟩
  have hchange := changes_write hproper hwrite
  have hpasses := hadmits.passes
  rw [origin_congr hgrows.workingDirectory] at hpasses
  rw [destination_congr hgrows.workingDirectory] at hfree hchange
  refine ⟨StoreEffect.write (Grows.storeEffect (by rwa [List.dropLast_concat])) hfree hchange, ?_⟩
  intro q hq
  have hdir := hpasses q hq
  have hne : q ≠ fs.destination ⟨lead, pieces ++ [piece]⟩ := fun heq => hfree (heq ▸ hdir)
  rw [hchange.find_of_ne hne, hdir]

/-- **A file that is not stored changes no file.** -/
theorem store_effect_of_false (hg : fs.Grounded) (hproper : isProper piece)
    (h : fs.store ⟨lead, pieces ++ [piece]⟩ content = (false, fs')) :
    fs.StoreEffect fs' ⟨lead, pieces ++ [piece]⟩ fs.contents := by
  rcases hmakes : fs.makeAbove ⟨lead, pieces ++ [piece]⟩ with ⟨fault | _, fs₁⟩
  all_goals
    have hgrows := grows_makeAbove hg hproper hmakes
    have heffect : fs.StoreEffect fs₁ ⟨lead, pieces ++ [piece]⟩ fs.contents :=
      Grows.storeEffect (by rwa [List.dropLast_concat])
  · simp only [store, hmakes, Prod.mk.injEq, true_and] at h
    rwa [← h]
  · cases hwrite : fs₁.write ⟨lead, pieces ++ [piece]⟩ content with
    | error fault =>
      simp only [store, hmakes, put, hwrite, Prod.mk.injEq, true_and] at h
      rwa [← h]
    | ok fs₂ => simp [store, hmakes, put, hwrite] at h

end FileSystem

end JackCompiler
