import JackCompiler.FileTree
import JackCompiler.Path
/-!
# Sources and targets

Which files a run compiles, and where their code goes. A file that is given as input is compiled
whatever it is called; in a directory the sources are the files with the extension `jack`, at any
depth.
-/

namespace JackCompiler

namespace CommandLine

variable {α : Type}

mutual

/-- The sources in a tree that stands at a path. -/
def sourcesIn (path : Path) : FileTree α → List Path
  | .file _ => if path.extension? = some "jack" then [path] else []
  | .directory entries => sourcesBelow path entries

/-- The sources below the entries of a directory. -/
def sourcesBelow (dir : Path) : List (String × FileTree α) → List Path
  | [] => []
  | (name, t) :: rest => sourcesIn (dir.join (.ofString name)) t ++ sourcesBelow dir rest

end

/-- The sources of an input in the order of their paths: those below it if it is a directory,
otherwise itself. -/
def collect (input : Path) : Option (FileTree α) → List Path
  | none => [input]
  | some tree => (sourcesIn input tree).mergeSort Path.le

/-- Where the code of a source goes: next to the source, or, with an output directory, to the same
place below that directory as the source has below the input. -/
def target (source input : Path) (dir : Option Path) : Path :=
  let code := source.withExtension "vm"
  match dir with
  | none => code
  | some dir =>
    match (code.relativeTo? input).filter fun rest => rest.text != "" with
    | some rest => dir.join rest
    | none =>
      match code.fileName? with
      | some name => dir.join (.ofString name)
      | none => code

end CommandLine

end JackCompiler
