import JackCompiler.Error
import JackCompiler.FileTree
import JackCompiler.Path
/-!
# File systems

A file tree as it is seen from one of its directories, and what the file operations do to it. A path
is followed piece by piece, from the top of the tree if it begins with a slash and otherwise from
the working directory. The piece `..` leads to the directory above; at the top it leads nowhere
else. A path that is too long is refused before it is followed, a name that is too long when it is
reached.
-/

namespace JackCompiler

/-- A file tree, and the location of the directory at which relative paths start. -/
structure FileSystem (α : Type) where
  tree : FileTree α
  workingDirectory : List String := []

namespace FileSystem

variable {α : Type}

/-- What stands in the working directory. -/
def workingTree (fs : FileSystem α) : FileTree α :=
  (fs.tree.get? fs.workingDirectory).getD .empty

/-- How many bytes a name can have. -/
def nameLimit : Nat := 255

/-- How many bytes a path can have. -/
def pathLimit : Nat := 4095

/-- Does the path have more bytes than a path can have? -/
def isTooLong (p : Path) : Bool :=
  pathLimit < p.text.utf8ByteSize

/-- The location of a name in a directory, whether something stands there or not. -/
def entry (fs : FileSystem α) (place : List String) (name : String) :
    Except FileFault (List String) :=
  match fs.tree.get? place with
  | some (.directory _) =>
    if nameLimit < name.utf8ByteSize then .error .nameTooLong else .ok (place ++ [name])
  | some (.file _) => .error .notDirectory
  | none => .error .notFound

/-- Follows one piece of a path from a location. Only a directory can be gone through. -/
def step (fs : FileSystem α) (place : List String) (piece : String) :
    Except FileFault (List String) := do
  let next ← fs.entry place piece
  if !Path.isProper piece then return place
  if piece = ".." then return place.dropLast
  if (fs.tree.get? next).isNone then throw .notFound
  return next

/-- The location at which a path starts. -/
def start (fs : FileSystem α) (p : Path) : Except FileFault (List String) :=
  if isTooLong p then .error .nameTooLong
  else if p.text = "" then .error .notFound
  else if p.lead = .root then .ok []
  else .ok fs.workingDirectory

/-- The location to which a path leads. -/
def locate (fs : FileSystem α) (p : Path) : Except FileFault (List String) := do
  p.pieces.foldlM fs.step (← fs.start p)

/-- The location to which a path leads if something is put there: only its directory must be
there. -/
def locateNew (fs : FileSystem α) (p : Path) : Except FileFault (List String) := do
  match p.fileName? with
  | none => fs.locate p
  | some name =>
    fs.entry (← (Path.trimEnd p.pieces).dropLast.foldlM fs.step (← fs.start p)) name

/-- Does the path lead to a directory, and which? -/
def directoryAt? (fs : FileSystem α) (p : Path) : Option (FileTree α) :=
  match (fs.locate p).toOption.bind fs.tree.get? with
  | some (.directory entries) => some (.directory entries)
  | _ => none

mutual

/-- A tree at a path, without the contents of its files, as one finds it who knows only paths: a
directory whose path is too long cannot be told from a file. -/
def outline (path : Path) : FileTree α → FileTree Unit
  | .file _ => .file ()
  | .directory entries =>
    if isTooLong path then .file () else .directory (outlineBelow path entries)

/-- The entries of a directory, as one finds them who knows only paths. -/
def outlineBelow (dir : Path) : List (String × FileTree α) → List (String × FileTree Unit)
  | [] => []
  | (name, t) :: rest => (name, outline (dir.join (.ofString name)) t) :: outlineBelow dir rest

end

/-- The content of a file. -/
def read (fs : FileSystem α) (p : Path) : Except FileFault α := do
  match fs.tree.get? (← fs.locate p) with
  | some (.file content) => return content
  | some (.directory _) => throw .isDirectory
  | none => throw .notFound

/-- The files after one has been written, in place of an older one if there is one. -/
def write (fs : FileSystem α) (p : Path) (content : α) : Except FileFault (FileSystem α) := do
  let place ← fs.locateNew p
  match fs.tree.get? place with
  | some (.directory _) => throw .isDirectory
  | _ => return { fs with tree := fs.tree.set place (.file content) }

/-- The files with a new directory. -/
def makeDirectory (fs : FileSystem α) (p : Path) : Except FileFault (FileSystem α) := do
  let place ← fs.locateNew p
  match fs.tree.get? place with
  | some _ => throw .alreadyExists
  | none => return { fs with tree := fs.tree.set place .empty }

/-- Makes a directory and those above it that are missing: the list is the directory, the one above
it, and so on. The files are answered also after a failure, because the directories made before it
stay. -/
def makeDirectories (fs : FileSystem α) : List Path → Except FileFault Unit × FileSystem α
  | [] => (.ok (), fs)
  | p :: above =>
    match fs.makeDirectory p with
    | .ok fs => (.ok (), fs)
    | .error .notFound =>
      match fs.makeDirectories above with
      | (.error e, fs) => (.error e, fs)
      | (.ok (), fs) => settle fs p (fs.makeDirectory p)
    | .error e => settle fs p (.error e)
where
  /-- It does not matter that a directory was not made if it is there. -/
  settle (fs : FileSystem α) (p : Path) :
      Except FileFault (FileSystem α) → Except FileFault Unit × FileSystem α
    | .ok fs => (.ok (), fs)
    | .error e => if (fs.directoryAt? p).isSome then (.ok (), fs) else (.error e, fs)

end FileSystem

end JackCompiler
