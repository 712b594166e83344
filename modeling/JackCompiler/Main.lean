import JackCompiler.CommandLine.Run
/-!
# The program

Runs the compiler on the files of the system.
-/

namespace JackCompiler

/-- The fault behind an error of the system. Some operations negate the number of the error. -/
def FileFault.ofError : IO.Error → FileFault
  | .noFileOrDirectory .. => .notFound
  | .permissionDenied .. => .permissionDenied
  | .alreadyExists .. => .alreadyExists
  | .inappropriateType _ code _ => if min code (-code) = 21 then .isDirectory else .notDirectory
  | .invalidArgument file code details =>
    if min code (-code) = 36 then .nameTooLong
    else .other (toString (IO.Error.invalidArgument file code details))
  | e => .other (toString e)

namespace CommandLine

/-- Does an action, and answers with the fault if it fails. -/
def attempt {α : Type} (action : IO α) : IO (Except FileFault α) := do
  try
    return .ok (← action)
  catch e =>
    return .error (.ofError e)

/-- Is there a directory at the path? -/
def isDirectory (p : Path) : IO Bool :=
  (System.mkFilePath [p.text]).isDir

/-- The tree below a directory. -/
partial def readTree (dir : Path) : IO (Except CompileError (FileTree Unit)) := do
  match ← attempt (System.mkFilePath [dir.text]).readDir with
  | .error fault => return .error (.file .readDirectory dir.text fault)
  | .ok found =>
    let mut entries := #[]
    for entry in found do
      let path := dir.join (.ofString entry.fileName)
      if ← isDirectory path then
        match ← readTree path with
        | .ok tree => entries := entries.push (entry.fileName, tree)
        | .error e => return .error e
      else
        entries := entries.push (entry.fileName, .file ())
    return .ok (.directory entries.toList)

/-- Makes a directory and those above it that are missing, given as a list upward. -/
def makePath : List Path → IO Unit
  | [] => pure ()
  | p :: above => do
    try
      IO.FS.createDir p.text
    catch
      | .noFileOrDirectory .. => do
        makePath above
        try
          IO.FS.createDir p.text
        catch e =>
          unless ← isDirectory p do throw e
      | e => unless ← isDirectory p do throw e

instance : Host IO where
  print text := IO.print text
  directory? p := do
    if ← isDirectory p then return (← readTree p).map some
    return .ok none
  read p := do
    match ← attempt (IO.FS.readBinFile p.text) with
    | .error fault => return .error fault
    | .ok bytes =>
      match String.fromUTF8? bytes with
      | some text => return .ok text
      | none => return .error .invalidText
  makeDirectories p := attempt (makePath p.ancestors)
  write p text := attempt (IO.FS.writeFile p.text text)

/-- What is said when the arguments are not in order. -/
def usage : String :=
  "Usage: jack-compiler [-d | --dump] [-o | --output DIR] [INPUT]"

end CommandLine

end JackCompiler

def main (args : List String) : IO UInt32 := do
  let status ← JackCompiler.CommandLine.execute args
  if status = 2 then IO.eprintln JackCompiler.CommandLine.usage
  return status
