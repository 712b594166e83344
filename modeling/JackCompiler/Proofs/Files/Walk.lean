import JackCompiler.FileSystem
import JackCompiler.Proofs.Fallible
import JackCompiler.Proofs.Files.Pieces
import JackCompiler.Proofs.Files.Tree
/-!
# Following a path

As long as a path can be followed, where it leads is told by its pieces alone: a name leads one
level down, `..` one level up, and other pieces nowhere (`FileSystem.walk`). It can be followed as
long as it only goes through directories. So a file system that has more directories than another,
and files where the other has files, lets every path lead where it led.
-/

namespace JackCompiler

namespace FileSystem

open FileTree (Finding)

variable {α : Type} {fs fs' : FileSystem α} {place : List String} {piece : String}
  {pieces : List String}

/-- What one finds at a location. -/
def find (fs : FileSystem α) (place : List String) : Finding α :=
  fs.tree.find place

/-- The content of the file at a location, if there is a file. -/
def contents (fs : FileSystem α) (place : List String) : Option α :=
  match fs.find place with
  | .file content => some content
  | _ => none

/-- A location has a content exactly if there is a file. -/
theorem contents_eq_some {content : α} :
    fs.contents place = some content ↔ fs.find place = .file content := by
  unfold contents
  cases fs.find place <;> simp

/-- A directory has no content. -/
theorem contents_of_directory (h : fs.find place = .directory) : fs.contents place = none := by
  rw [contents, h]

/-- Where there is no content there is no file. -/
theorem find_ne_file (h : fs.contents place = none) (content : α) :
    fs.find place ≠ .file content := by
  intro hfile
  rw [contents_eq_some.2 hfile] at h
  cases h

/-! ## Where pieces lead -/

/-- Where a piece of a path leads, whatever is there. -/
def walk (place : List String) (piece : String) : List String :=
  if !Path.isProper piece then place
  else if piece = ".." then place.dropLast
  else place ++ [piece]

/-- A piece that names nothing leads nowhere else. -/
theorem walk_of_not_proper (h : ¬ Path.isProper piece) : walk place piece = place := by
  simp [walk, h]

/-- The piece `..` leads to the directory above. -/
theorem walk_up : walk place ".." = place.dropLast := by
  rw [walk, if_neg (by decide), if_pos rfl]

/-- A name leads one further down. -/
theorem walk_name (hproper : Path.isProper piece) (hup : piece ≠ "..") :
    walk place piece = place ++ [piece] := by
  simp [walk, hproper, hup]

/-- Names lead straight down. -/
theorem foldl_walk_names {names : List String} (h : ∀ name ∈ names, Path.IsName name) :
    names.foldl walk place = place ++ names := by
  induction names generalizing place with
  | nil => simp
  | cons name names ih =>
    obtain ⟨hname, hnames⟩ := List.forall_mem_cons.1 h
    rw [List.foldl_cons, walk_name hname.proper hname.ne_up, ih hnames, List.append_assoc,
      List.singleton_append]

/-- The place is one that the pieces lead to or through. -/
def Visits (start pieces place : List String) : Prop :=
  ∃ front, front <+: pieces ∧ place = front.foldl walk start

section Visits

variable {start q : List String}

theorem visits_start (start pieces : List String) : Visits start pieces start :=
  ⟨[], List.nil_prefix, rfl⟩

theorem visits_end (start pieces : List String) : Visits start pieces (pieces.foldl walk start) :=
  ⟨pieces, List.prefix_rfl, rfl⟩

/-- Further pieces lead through no fewer places. -/
theorem Visits.mono {pieces' : List String} (h : Visits start pieces q) (hp : pieces <+: pieces') :
    Visits start pieces' q := by
  obtain ⟨front, hfront, hq⟩ := h
  exact ⟨front, hfront.trans hp, hq⟩

theorem visits_nil : Visits start [] q ↔ q = start := by
  constructor
  · rintro ⟨front, hfront, rfl⟩
    rw [List.prefix_nil.1 hfront]
    rfl
  · rintro rfl
    exact visits_start q []

/-- One more piece leads to one more place. -/
theorem visits_concat :
    Visits start (pieces ++ [piece]) q ↔
      Visits start pieces q ∨ q = walk (pieces.foldl walk start) piece := by
  constructor
  · rintro ⟨front, hfront, rfl⟩
    rcases List.prefix_concat_iff.1 hfront with rfl | hfront
    · exact .inr (by simp)
    · exact .inl ⟨front, hfront, rfl⟩
  · rintro (h | rfl)
    · exact h.mono (List.prefix_append _ _)
    · exact ⟨pieces ++ [piece], List.prefix_rfl, by simp⟩

/-- Names lead through the places on the way straight down. -/
theorem visits_append_names {a names : List String} (hnames : ∀ name ∈ names, Path.IsName name) :
    Visits start (a ++ names) q ↔
      Visits start a q ∨ ∃ front, front <+: names ∧ q = a.foldl walk start ++ front := by
  constructor
  · rintro ⟨front, hfront, rfl⟩
    rcases List.prefix_or_prefix_of_prefix hfront (List.prefix_append a names) with
      ha | ⟨front, rfl⟩
    · exact .inl ⟨front, ha, rfl⟩
    · have hfront := (List.prefix_append_right_inj a).1 hfront
      rw [List.foldl_append, foldl_walk_names fun name hname => hnames name (hfront.subset hname)]
      exact .inr ⟨front, hfront, rfl⟩
  · rintro (h | ⟨front, hfront, rfl⟩)
    · exact h.mono (List.prefix_append _ _)
    · refine ⟨a ++ front, (List.prefix_append_right_inj a).2 hfront, ?_⟩
      rw [List.foldl_append, foldl_walk_names fun name hname => hnames name (hfront.subset hname)]

end Visits

/-! ## Following pieces -/

/-- Whether something can have a name in a place depends on what is found at the place. -/
theorem entry_eq (fs : FileSystem α) (place : List String) (name : String) :
    fs.entry place name = (match fs.find place with
      | .directory =>
        if nameLimit < name.utf8ByteSize then .error .nameTooLong else .ok (place ++ [name])
      | .file _ => .error .notDirectory
      | .nothing => .error .notFound) := by
  unfold entry find FileTree.find
  cases fs.tree.get? place with
  | none => rfl
  | some t => cases t <;> rfl

/-- Something can have a name in a directory, if the name is not too long. -/
theorem entry_eq_ok {name : String} {next : List String} :
    fs.entry place name = .ok next ↔
      fs.find place = .directory ∧ name.utf8ByteSize ≤ nameLimit ∧ next = place ++ [name] := by
  rw [entry_eq]
  cases fs.find place with
  | nothing => simp
  | file => simp
  | directory =>
    by_cases hsize : nameLimit < name.utf8ByteSize
    · simp [hsize, Nat.not_le_of_lt hsize]
    · simp [hsize, Nat.le_of_not_lt hsize, eq_comm]

/-- Above a directory is a directory. -/
theorem find_dropLast (h : fs.find place = .directory) : fs.find place.dropLast = .directory :=
  FileTree.find_dropLast h

/-- Whether anything stands at a place depends on what is found there. -/
theorem isNone_get? (fs : FileSystem α) (place : List String) :
    (fs.tree.get? place).isNone = (match fs.find place with
      | .nothing => true
      | _ => false) := by
  unfold find FileTree.find
  cases fs.tree.get? place with
  | none => rfl
  | some t => cases t <;> rfl

/-- **A step is made from a directory to something that is there.** -/
theorem step_eq (fs : FileSystem α) (place : List String) (piece : String) :
    fs.step place piece = (match fs.find place with
      | .directory =>
        if nameLimit < piece.utf8ByteSize then .error .nameTooLong
        else (match fs.find (walk place piece) with
          | .nothing => .error .notFound
          | _ => .ok (walk place piece))
      | .file _ => .error .notDirectory
      | .nothing => .error .notFound) := by
  unfold step
  rw [entry_eq]
  cases hdir : fs.find place with
  | nothing => rfl
  | file => rfl
  | directory =>
    by_cases hsize : nameLimit < piece.utf8ByteSize
    · simp only [hsize, if_true]
      rfl
    · simp only [hsize, if_false]
      by_cases hproper : Path.isProper piece
      · by_cases hup : piece = ".."
        · subst hup
          rw [walk_up, find_dropLast hdir]
          rfl
        · rw [walk_name hproper hup]
          change (if !Path.isProper piece then _ else _) = _
          rw [if_neg (by simp [hproper])]
          rw [if_neg hup, isNone_get?]
          cases fs.find (place ++ [piece]) <;> rfl
      · rw [walk_of_not_proper hproper, hdir]
        change (if !Path.isProper piece then _ else _) = _
        rw [if_pos (by simp [hproper])]
        rfl

/-- A step goes from a directory to where its piece leads, if something is there. -/
theorem step_eq_ok {next : List String} :
    fs.step place piece = .ok next ↔
      fs.find place = .directory ∧ piece.utf8ByteSize ≤ nameLimit ∧ next = walk place piece ∧
        fs.find next ≠ .nothing := by
  rw [step_eq]
  cases fs.find place with
  | nothing => simp
  | file => simp
  | directory =>
    by_cases hsize : nameLimit < piece.utf8ByteSize
    · have := Nat.not_le_of_lt hsize
      simp [hsize, this]
    · have hle := Nat.le_of_not_lt hsize
      simp only [hsize, if_false, hle, true_and]
      constructor
      · intro h
        split at h
        · cases h
        · next hnext =>
          cases h
          exact ⟨rfl, hnext⟩
      · rintro ⟨rfl, hnext⟩
        split
        · next h => exact absurd h hnext
        · rfl

/-- The pieces can be followed: they go through directories, their names are not too long, and there
is something where they lead. -/
structure Follows (fs : FileSystem α) (start pieces : List String) : Prop where
  size_le : ∀ piece ∈ pieces, piece.utf8ByteSize ≤ nameLimit
  directory : ∀ front, front <+: pieces → front ≠ pieces →
    fs.find (front.foldl walk start) = .directory
  ne_nothing : pieces ≠ [] → fs.find (pieces.foldl walk start) ≠ .nothing

/-- All the places that the pieces lead to or through are directories. -/
def Passes (fs : FileSystem α) (start pieces : List String) : Prop :=
  ∀ q, Visits start pieces q → fs.find q = .directory

/-- None of the places that the pieces lead to or through is a file. -/
def Clear (fs : FileSystem α) (start pieces : List String) : Prop :=
  ∀ q, Visits start pieces q → fs.contents q = none

variable {start : List String}

/-- A path that passes directories passes them without its last piece. -/
theorem Passes.of_concat (h : fs.Passes start (pieces ++ [piece])) : fs.Passes start pieces :=
  fun q hq => h q (hq.mono (List.prefix_append _ _))

/-- A path that is clear of files is so without its last piece. -/
theorem Clear.of_concat (h : fs.Clear start (pieces ++ [piece])) : fs.Clear start pieces :=
  fun q hq => h q (hq.mono (List.prefix_append _ _))

/-- Before its last piece a path that can be followed goes through directories. -/
theorem Follows.passes_of_concat (h : fs.Follows start (pieces ++ [piece])) :
    fs.Passes start pieces := by
  rintro q ⟨front, hfront, rfl⟩
  refine h.directory front (hfront.trans (List.prefix_append _ _)) ?_
  rintro rfl
  have hlength := hfront.length_le
  rw [List.length_append, List.length_singleton] at hlength
  omega

/-- **Where a path leads is told by its pieces alone.** -/
theorem foldlM_step_eq_ok {last : List String} :
    pieces.foldlM fs.step start = .ok last ↔
      fs.Follows start pieces ∧ last = pieces.foldl walk start := by
  induction pieces using List.reverseRecOn generalizing last with
  | nil =>
    constructor
    · intro h
      obtain rfl := Fallible.pure_eq_ok.1 h
      refine ⟨⟨by simp, fun front hfront hne => ?_, by simp⟩, rfl⟩
      exact absurd (List.prefix_nil.1 hfront) hne
    · rintro ⟨-, rfl⟩
      rfl
  | append_singleton pieces piece ih =>
    rw [List.foldlM_append, Fallible.bind_eq_ok]
    simp only [ih, List.foldlM_cons, List.foldlM_nil, bind_pure, step_eq_ok, List.foldl_append,
      List.foldl_cons, List.foldl_nil]
    constructor
    · rintro ⟨_, ⟨hf, rfl⟩, hdir, hsize, rfl, hnext⟩
      refine ⟨⟨?_, fun front hfront hne => ?_, fun _ => by simpa using hnext⟩, rfl⟩
      · simpa [or_imp, forall_and, hsize] using hf.size_le
      · have hfront := (List.prefix_concat_iff.1 hfront).resolve_left hne
        by_cases hlast : front = pieces
        · rwa [hlast]
        · exact hf.directory front hfront hlast
    · rintro ⟨hf, rfl⟩
      have hpasses := hf.passes_of_concat
      have hdir := hpasses _ (visits_end start pieces)
      refine ⟨_, ⟨⟨fun p hp => hf.size_le p (by simp [hp]), ?_, ?_⟩, rfl⟩, hdir, ?_, rfl, ?_⟩
      · exact fun front hfront _ => hpasses _ ⟨front, hfront, rfl⟩
      · intro _
        simp [hdir]
      · exact hf.size_le piece (by simp)
      · simpa using hf.ne_nothing (by simp)

/-- A path that passes only directories is clear of files. -/
theorem Passes.clear (h : fs.Passes start pieces) : fs.Clear start pieces := by
  intro q hq
  exact contents_of_directory (h q hq)

/-- A path that passes only directories can be followed, if its names are not too long. -/
theorem Passes.follows (h : fs.Passes start pieces)
    (hsize : ∀ piece ∈ pieces, piece.utf8ByteSize ≤ nameLimit) : fs.Follows start pieces where
  size_le := hsize
  directory front hfront _ := h _ ⟨front, hfront, rfl⟩
  ne_nothing _ := by simp [h _ (visits_end start pieces)]

/-- So can one more piece to something that is there. -/
theorem Passes.follows_concat (h : fs.Passes start pieces)
    (hsize : ∀ p ∈ pieces ++ [piece], p.utf8ByteSize ≤ nameLimit)
    (hthere : fs.find (walk (pieces.foldl walk start) piece) ≠ .nothing) :
    fs.Follows start (pieces ++ [piece]) where
  size_le := hsize
  directory front hfront hne :=
    h _ ⟨front, (List.prefix_concat_iff.1 hfront).resolve_left hne, rfl⟩
  ne_nothing _ := by simpa using hthere

/-- A path that can be followed to a directory passes only directories. -/
theorem Follows.passes (h : fs.Follows start pieces)
    (hlast : fs.find (pieces.foldl walk start) = .directory) : fs.Passes start pieces := by
  rintro q ⟨front, hfront, rfl⟩
  by_cases hne : front = pieces
  · rwa [hne]
  · exact h.directory front hfront hne

/-- The last piece is followed from where the others lead. -/
theorem foldlM_step_concat :
    (pieces ++ [piece]).foldlM fs.step start = (do
      let place ← pieces.foldlM fs.step start
      fs.step place piece) := by
  simp only [List.foldlM_append, List.foldlM_cons, List.foldlM_nil, bind_pure]

/-- Where no file is in the way, a path fails only because something is missing. -/
theorem Clear.foldlM_step (h : fs.Clear start pieces)
    (hsize : ∀ piece ∈ pieces, piece.utf8ByteSize ≤ nameLimit) :
    pieces.foldlM fs.step start = .ok (pieces.foldl walk start) ∨
      pieces.foldlM fs.step start = .error .notFound := by
  induction pieces using List.reverseRecOn with
  | nil => exact .inl rfl
  | append_singleton pieces piece ih =>
    have hclear := h.of_concat
    rw [foldlM_step_concat]
    rcases ih hclear fun p hp => hsize p (by simp [hp]) with hok | herror
    · have hle : ¬ nameLimit < piece.utf8ByteSize := Nat.not_lt_of_le (hsize piece (by simp))
      have hfile := find_ne_file (hclear _ (visits_end start pieces))
      rw [hok, List.foldl_append]
      change fs.step (pieces.foldl walk start) piece = _ ∨ fs.step _ piece = _
      rw [step_eq]
      cases hplace : fs.find (pieces.foldl walk start) with
      | nothing => exact .inr rfl
      | file content => exact absurd hplace (hfile content)
      | directory =>
        simp only [hle, if_false]
        cases fs.find (walk (pieces.foldl walk start) piece) with
        | nothing => exact .inr rfl
        | file | directory => exact .inl rfl
    · rw [herror]
      exact .inr rfl

/-- From a directory to something that is there, only the length of the name can stop a step. -/
theorem step_of_directory (hdir : fs.find place = .directory)
    (hthere : fs.find (walk place piece) ≠ .nothing) :
    fs.step place piece = .ok (walk place piece) ∨ fs.step place piece = .error .nameTooLong := by
  by_cases hsize : nameLimit < piece.utf8ByteSize
  · right
    simp [step_eq, hdir, hsize]
  · left
    exact step_eq_ok.2 ⟨hdir, Nat.le_of_not_lt hsize, rfl, hthere⟩

/-- Where all directories are there, a path fails only because a name is too long. -/
theorem Passes.foldlM_step (h : fs.Passes start pieces) :
    pieces.foldlM fs.step start = .ok (pieces.foldl walk start) ∨
      pieces.foldlM fs.step start = .error .nameTooLong := by
  induction pieces using List.reverseRecOn with
  | nil => exact .inl rfl
  | append_singleton pieces piece ih =>
    have hpasses := h.of_concat
    have hdir := hpasses _ (visits_end start pieces)
    have hthere := h _ (visits_concat.2 (.inr rfl))
    rw [foldlM_step_concat, List.foldl_append]
    rcases ih hpasses with hok | herror
    · rw [hok]
      exact step_of_directory hdir (by simp [hthere])
    · rw [herror]
      exact .inr rfl

/-- So does a path to something in the last of them. -/
theorem Passes.foldlM_step_concat (h : fs.Passes start pieces)
    (hthere : fs.find (walk (pieces.foldl walk start) piece) ≠ .nothing) :
    (pieces ++ [piece]).foldlM fs.step start = .ok ((pieces ++ [piece]).foldl walk start) ∨
      (pieces ++ [piece]).foldlM fs.step start = .error .nameTooLong := by
  rw [FileSystem.foldlM_step_concat, List.foldl_append]
  rcases h.foldlM_step with hok | herror
  · rw [hok]
    exact step_of_directory (h _ (visits_end start pieces)) hthere
  · rw [herror]
    exact .inr rfl

/-! ## File systems that have grown -/

/-- The later file system has all directories of the earlier one, and files where that has files. -/
structure Extends (fs fs' : FileSystem α) : Prop where
  workingDirectory : fs'.workingDirectory = fs.workingDirectory
  directory : ∀ q, fs.find q = .directory → fs'.find q = .directory
  file : ∀ q content, fs.find q = .file content → ∃ content', fs'.find q = .file content'

namespace Extends

/-- What was there is there. -/
theorem ne_nothing (h : fs.Extends fs') (hq : fs.find place ≠ .nothing) :
    fs'.find place ≠ .nothing := by
  cases hplace : fs.find place with
  | nothing => exact absurd hplace hq
  | directory =>
    simp [h.directory place hplace]
  | file content =>
    obtain ⟨content', hfile⟩ := h.file place content hplace
    simp [hfile]

/-- A name that was too long is so still. -/
theorem step_nameTooLong (h : fs.Extends fs') (hs : fs.step place piece = .error .nameTooLong) :
    fs'.step place piece = .error .nameTooLong := by
  rw [step_eq] at hs ⊢
  cases hplace : fs.find place with
  | nothing => simp [hplace] at hs
  | file => simp [hplace] at hs
  | directory =>
    rw [h.directory place hplace]
    by_cases hsize : nameLimit < piece.utf8ByteSize
    · simp [hsize]
    · simp only [hplace, hsize, if_false] at hs
      split at hs <;> cases hs

/-- **A path leads where it led**, or is too long as it was. -/
theorem foldlM_step (h : fs.Extends fs') {result : Except FileFault (List String)}
    (hr : (∃ last, result = .ok last) ∨ result = .error .nameTooLong)
    (hf : pieces.foldlM fs.step start = result) : pieces.foldlM fs'.step start = result := by
  induction pieces generalizing start with
  | nil => exact hf
  | cons piece pieces ih =>
    rw [List.foldlM_cons] at hf ⊢
    cases hs : fs.step start piece with
    | ok next =>
      obtain ⟨hdir, hsize, hnext, hthere⟩ := step_eq_ok.1 hs
      have hs' : fs'.step start piece = .ok next :=
        step_eq_ok.2 ⟨h.directory start hdir, hsize, hnext, h.ne_nothing hthere⟩
      rw [hs] at hf
      rw [hs']
      exact ih hf
    | error fault =>
      rw [hs] at hf
      obtain rfl : result = .error fault := hf.symm
      obtain rfl : fault = .nameTooLong := by simpa using hr
      rw [h.step_nameTooLong hs]
      rfl

end Extends

/-! ## Whole paths -/

/-- Where a path starts if it starts anywhere. -/
def origin (fs : FileSystem α) (lead : Path.Lead) : List String :=
  if lead = .root then [] else fs.workingDirectory

/-- The location that a path names by its pieces alone. -/
def destination (fs : FileSystem α) (p : Path) : List String :=
  p.pieces.foldl walk (fs.origin p.lead)

/-- Where paths start depends on the working directory alone. -/
theorem origin_congr (h : fs'.workingDirectory = fs.workingDirectory) (lead : Path.Lead) :
    fs'.origin lead = fs.origin lead := by
  rw [origin, h, origin]

/-- So does what a path names by its pieces. -/
theorem destination_congr (h : fs'.workingDirectory = fs.workingDirectory) (p : Path) :
    fs'.destination p = fs.destination p := by
  rw [destination, origin_congr h, destination]

/-- A path that is neither too long nor empty starts at its origin. -/
theorem start_eq_ok {p : Path} {place : List String} :
    fs.start p = .ok place ↔
      isTooLong p = false ∧ p.text ≠ "" ∧ place = fs.origin p.lead := by
  unfold FileSystem.start origin
  by_cases hlong : isTooLong p
  · simp [hlong]
  · by_cases htext : p.text = ""
    · simp [hlong, htext]
    · by_cases hroot : p.lead = .root
      · simp [hlong, htext, hroot, eq_comm]
      · simp [hlong, htext, hroot, eq_comm]

/-- **A path leads to its destination**, if it is neither too long nor empty and can be followed. -/
theorem locate_eq_ok {p : Path} {place : List String} :
    fs.locate p = .ok place ↔
      isTooLong p = false ∧ p.text ≠ "" ∧ fs.Follows (fs.origin p.lead) p.pieces ∧
        place = fs.destination p := by
  unfold locate destination
  rw [Fallible.bind_eq_ok]
  simp only [start_eq_ok, foldlM_step_eq_ok]
  constructor
  · rintro ⟨_, ⟨hlong, htext, rfl⟩, hfollows, hplace⟩
    exact ⟨hlong, htext, hfollows, hplace⟩
  · rintro ⟨hlong, htext, hfollows, hplace⟩
    exact ⟨_, ⟨hlong, htext, rfl⟩, hfollows, hplace⟩

end FileSystem

end JackCompiler
