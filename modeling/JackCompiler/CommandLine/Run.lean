import JackCompiler.Compile
import JackCompiler.Diagnostic
import JackCompiler.Instruction.Listing
import JackCompiler.CommandLine.Options
import JackCompiler.CommandLine.Sources
/-!
# A run of the compiler

A run collects the sources, compiles each of them, and says what it does. A source that fails is
reported and does not stop the others. What the run needs of the world is a `Host`: a place to print
to, and files.
-/

namespace JackCompiler

namespace CommandLine

/-- What a run needs of the world around it. -/
class Host (m : Type → Type) where
  /-- Prints a text. -/
  print : String → m Unit
  /-- The tree below a directory, or none if the path leads to no directory. -/
  directory? : Path → m (Except CompileError (Option (FileTree Unit)))
  /-- The content of a text file. -/
  read : Path → m (Except FileFault String)
  /-- Makes a directory, and those above it that are missing. -/
  makeDirectories : Path → m (Except FileFault Unit)
  /-- Writes a text file. -/
  write : Path → String → m (Except FileFault Unit)

variable {m : Type → Type} [Monad m] [Host m]

/-- Prints a line. -/
def printLine (s : String) : m Unit :=
  Host.print (s ++ "\n")

/-- Reports an error that is not at a place of a source. -/
def report (action : FileAction) (path : Path) (fault : FileFault) : m Unit :=
  Host.print (Diagnostic.headline (.file action path.text fault))

/-- Writes the code of a source to its place. The answer says whether that worked. -/
def writeCode (place : Path) (code : Code) : m Bool := do
  let made ← match place.parent? with
    | some dir =>
      if dir.text = "" then pure true
      else
        match ← Host.makeDirectories dir with
        | .ok () => pure true
        | .error fault => do
          report .createDirectory dir fault
          pure false
    | none => pure true
  if !made then return false
  match ← Host.write place code.text with
  | .ok () => return true
  | .error fault => do
    report .writeFile place fault
    return false

/-- Compiles one source. The answer says whether that worked, and carries the labels on. -/
def compileFile (options : Options) (labels : Labels) (path : Path) : m (Bool × Labels) := do
  printLine ("  < " ++ path.text)
  match ← Host.read path with
  | .error fault => do
    report .openFile path fault
    return (false, labels)
  | .ok source =>
    match (compile source).run labels with
    | .error e labels => do
      Host.print (Diagnostic.render path.text source e)
      return (false, labels)
    | .ok code labels => do
      let place := target path (.ofString options.input) (options.output.map .ofString)
      printLine ("  > " ++ place.text)
      let written ← writeCode place code
      if written && options.dump then printLine code.listing
      return (written, labels)

/-- Compiles the sources in order. The answer is how many of them failed. -/
def compileAll (options : Options) (sources : List Path) : m Nat := do
  let (failed, _) ← sources.foldlM (fun (failed, labels) path => do
    let (ok, labels) ← compileFile options labels path
    return (if ok then failed else failed + 1, labels)) (0, ({} : Labels))
  return failed

/-- A run with the given options. The answer is its exit status. -/
def run (options : Options) : m UInt32 := do
  printLine "Jack Compiler"
  printLine "1. Collect Sources"
  let input := Path.ofString options.input
  match ← Host.directory? input with
  | .error e => do
    Host.print (Diagnostic.headline e)
    return 1
  | .ok tree => do
    printLine "2. Compile Classes"
    let sources := collect input tree
    let failed ← compileAll options sources
    if failed = 0 then return 0
    printLine (Text.emphasised .red
      (failed.repr ++ " of " ++ sources.length.repr ++ " classes failed"))
    return 1

/-- A run with the given arguments. If they are not in order, nothing is done. -/
def execute (args : List String) : m UInt32 :=
  match Options.ofArguments? args with
  | some options => run options
  | none => return 2

end CommandLine

end JackCompiler
