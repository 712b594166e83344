import JackCompiler.FileTree
import Mathlib.Data.List.Infix
/-!
# Looking into a file tree

What matters of a file tree is what one finds at each location: nothing, a file or a directory
(`FileTree.find`). Below a file and below nothing there is nothing. Where only a directory's own
entries change, setting a location is a change at that location and nowhere else (`find_set`), so a
file system is handled as a function from locations to findings.
-/

namespace JackCompiler

namespace FileTree

variable {α : Type}

/-- What one finds at a location. -/
inductive Finding (α : Type)
  | nothing
  | file (content : α)
  | directory

/-- Whether one finds a directory can be decided, whatever the contents of files are. -/
instance (f : Finding α) : Decidable (f = .directory) :=
  match f with
  | .nothing | .file _ => .isFalse (by simp)
  | .directory => .isTrue rfl

/-- A file or a directory, without what is in it. -/
def finding : FileTree α → Finding α
  | .file content => .file content
  | .directory _ => .directory

/-- What one finds at a location of the tree. -/
def find (t : FileTree α) (place : List String) : Finding α :=
  match t.get? place with
  | some u => u.finding
  | none => .nothing

variable {t u : FileTree α} {place rest : List String} {name : String}

@[simp]
theorem find_nil (t : FileTree α) : t.find [] = t.finding := rfl

/-- There is nothing below a file. -/
theorem find_file_cons (content : α) : (FileTree.file content).find (name :: rest) = .nothing := rfl

/-- In a directory one finds what is below its entries. -/
theorem find_directory_cons (entries : List (String × FileTree α)) :
    (FileTree.directory entries).find (name :: rest)
      = (match entries.lookup name with
        | some t => t.find rest
        | none => .nothing) := by
  simp only [find, get?]
  cases entries.lookup name <;> rfl

/-- One finds nothing where nothing stands. -/
theorem find_eq_nothing : t.find place = .nothing ↔ t.get? place = none := by
  unfold find
  cases t.get? place with
  | none => simp
  | some u => cases u <;> simp [finding]

/-- One finds a directory where one stands, whatever its entries are. -/
theorem find_eq_directory :
    t.find place = .directory ↔ ∃ entries, t.get? place = some (.directory entries) := by
  unfold find
  cases t.get? place with
  | none => simp
  | some u => cases u <;> simp [finding]

/-- One finds a file where it stands. -/
theorem find_eq_file {content : α} :
    t.find place = .file content ↔ t.get? place = some (.file content) := by
  unfold find
  cases t.get? place with
  | none => simp
  | some u => cases u <;> simp [finding]

/-- One comes to a location by way of those above it. -/
theorem get?_append (t : FileTree α) (place rest : List String) :
    t.get? (place ++ rest) = (t.get? place).bind fun t => t.get? rest := by
  induction place generalizing t with
  | nil => rfl
  | cons name place ih =>
    cases t with
    | file => rfl
    | directory entries =>
      simp only [List.cons_append, get?]
      cases entries.lookup name with
      | none => rfl
      | some t => exact ih t

/-- **Only a directory holds anything.** -/
theorem find_of_find_append (hrest : rest ≠ []) (h : t.find (place ++ rest) ≠ .nothing) :
    t.find place = .directory := by
  obtain ⟨name, rest, rfl⟩ := List.exists_cons_of_ne_nil hrest
  rw [Ne, find_eq_nothing, get?_append] at h
  cases hplace : t.get? place with
  | none => simp [hplace] at h
  | some u =>
    cases u with
    | file => simp [hplace, get?] at h
    | directory entries => exact find_eq_directory.2 ⟨entries, hplace⟩

/-- Above a directory is a directory, and above the top is the top. -/
theorem find_dropLast (h : t.find place = .directory) : t.find place.dropLast = .directory := by
  rcases List.eq_nil_or_concat' place with rfl | ⟨front, name, rfl⟩
  · exact h
  · have hhere : t.find (front ++ [name]) ≠ .nothing := by simp [h]
    rw [List.dropLast_concat]
    exact find_of_find_append (List.cons_ne_nil name []) hhere

/-- Setting an entry changes what is found below its name alone. -/
theorem find_setEntry {entries : List (String × FileTree α)} {other : String} :
    (FileTree.directory (setEntry name u entries)).find (other :: rest)
      = if other = name then u.find rest
        else (FileTree.directory entries).find (other :: rest) := by
  rw [find_directory_cons, find_directory_cons, lookup_setEntry]
  by_cases h : other = name
  · rw [if_pos h, if_pos h]
  · rw [if_neg h, if_neg h]

/-- **A change in a directory is a change at one location.** The tree that is set there has nothing
in it, and what gives way to it neither. -/
theorem find_set (hu : ∀ name rest, u.find (name :: rest) = .nothing)
    (hold : t.find place ≠ .directory)
    (hdir : place = [] ∨ t.find place.dropLast = .directory) (q : List String) :
    (t.set place u).find q = if q = place then u.finding else t.find q := by
  induction place generalizing t q with
  | nil =>
    cases q with
    | nil => rfl
    | cons name q =>
      cases t with
      | directory => exact absurd rfl hold
      | file content => simpa [set, find_file_cons] using hu name q
  | cons name place ih =>
    have hdir := hdir.resolve_left (by simp)
    -- the location is below the top, which therefore is a directory
    obtain ⟨entries, rfl⟩ : ∃ entries, t = .directory entries := by
      cases t with
      | directory entries => exact ⟨entries, rfl⟩
      | file content =>
        cases place with
        | nil => simp [finding] at hdir
        | cons => simp [find_file_cons] at hdir
    cases q with
    | nil => simp [set, finding]
    | cons other q =>
      rw [set, find_setEntry]
      by_cases hname : other = name
      · subst hname
        rw [if_pos rfl]
        rw [find_directory_cons] at hold ⊢
        cases hlookup : entries.lookup other with
        | some child =>
          rw [hlookup] at hold
          have hbelow : place = [] ∨ child.find place.dropLast = .directory := by
            cases place with
            | nil => exact .inl rfl
            | cons n place =>
              rw [List.dropLast_cons_cons, find_directory_cons, hlookup] at hdir
              exact .inr hdir
          rw [Option.getD_some, ih hold hbelow q]
          simp
        | none =>
          -- only an entry of the directory itself can be new
          obtain rfl : place = [] := by
            cases place with
            | nil => rfl
            | cons n place =>
              rw [List.dropLast_cons_cons, find_directory_cons, hlookup] at hdir
              cases hdir
          cases q with
          | nil => simp [set]
          | cons n q => simpa [set] using hu n q
      · rw [if_neg hname, if_neg (by simp [hname])]

end FileTree

end JackCompiler
