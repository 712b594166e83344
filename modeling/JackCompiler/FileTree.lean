/-!
# File trees

Directories and their files as a value. A location in a tree is the list of names from its top down.
Names are texts: a name whose bytes are no UTF-8 has no place in a tree.
-/

namespace JackCompiler

/-- A file with its content, or a directory with its entries. -/
inductive FileTree (α : Type)
  | file (content : α)
  | directory (entries : List (String × FileTree α))

namespace FileTree

variable {α : Type}

/-- A directory without entries. -/
def empty : FileTree α := .directory []

/-- What stands at a location. -/
def get? (t : FileTree α) : List String → Option (FileTree α)
  | [] => some t
  | name :: rest =>
    match t with
    | .file _ => none
    | .directory entries => (entries.lookup name).bind fun t => t.get? rest

/-- The entries with one of them set. -/
def setEntry (name : String) (t : FileTree α) :
    List (String × FileTree α) → List (String × FileTree α)
  | [] => [(name, t)]
  | (n, u) :: rest => if n = name then (n, t) :: rest else (n, u) :: setEntry name t rest

/-- The tree with something else at a location. Directories on the way there are made as needed,
and a file on the way gives way to one. -/
def set (t : FileTree α) : List String → FileTree α → FileTree α
  | [], u => u
  | name :: rest, u =>
    let entries :=
      match t with
      | .file _ => []
      | .directory entries => entries
    .directory (setEntry name (((entries.lookup name).getD empty).set rest u) entries)

theorem lookup_setEntry (name other : String) (t : FileTree α)
    (entries : List (String × FileTree α)) :
    (setEntry name t entries).lookup other =
      if other = name then some t else entries.lookup other := by
  induction entries with
  | nil =>
    by_cases h : other = name
    · simp [setEntry, h]
    · simp [setEntry, List.lookup_cons, beq_false_of_ne h, h]
  | cons entry rest ih =>
    obtain ⟨n, u⟩ := entry
    by_cases hn : n = name
    · subst hn
      by_cases h : other = n
      · simp [setEntry, h]
      · simp [setEntry, List.lookup_cons, beq_false_of_ne h, h]
    · by_cases h : other = n
      · subst h
        simp [setEntry, hn]
      · simp [setEntry, List.lookup_cons, beq_false_of_ne h, hn, ih]

mutual

/-- The files with their locations; `place` is the location of the tree, reversed. -/
def filesFrom (place : List String) : FileTree α → List (List String × α)
  | .file content => [(place.reverse, content)]
  | .directory entries => filesOf place entries

/-- The files below the entries of a directory. -/
def filesOf (place : List String) : List (String × FileTree α) → List (List String × α)
  | [] => []
  | (name, t) :: rest => filesFrom (name :: place) t ++ filesOf place rest

end

/-- Every file with its location. -/
def files (t : FileTree α) : List (List String × α) :=
  t.filesFrom []

/-- The files that are new or have another content than before. -/
def changes [DecidableEq α] (before after : FileTree α) : List (List String × α) :=
  after.files.filter fun (place, content) =>
    match before.get? place with
    | some (.file old) => old ≠ content
    | _ => true

end FileTree

end JackCompiler
